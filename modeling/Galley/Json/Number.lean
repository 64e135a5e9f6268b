import Galley.Decimal.Reading
import Galley.Json.Value

/-
Numbers of JSON text.  Whole numbers that fit a machine word stay whole; any other number is
scaled from its first digits, as many as a 64-bit word takes, by powers of ten in floating
point.
-/

namespace Galley
namespace Json

/-- Leading digits of a number and the power of ten still to be applied. -/
structure Digits where
  significand : Nat
  exponent : Int
  deriving Repr

def digitOf (c : Char) : Nat := Decimal.ofDigits [c]

/-- A word has no room for one more digit. -/
def isFull (significand : Nat) (c : Char) : Bool := UInt64.size ≤ 10 * significand + digitOf c

/-- Digits before the point.  Those that no longer fit only raise the exponent. -/
def wholeDigits : Digits → List Char → Digits
  | d, [] => d
  | d, c :: cs =>
    if isFull d.significand c then { d with exponent := (c :: cs).length }
    else wholeDigits { d with significand := 10 * d.significand + digitOf c } cs

/-- Digits after the point.  Those that no longer fit are dropped. -/
def fractionDigits : Digits → List Char → Digits
  | d, [] => d
  | d, c :: cs =>
    if isFull d.significand c then d
    else fractionDigits ⟨10 * d.significand + digitOf c, d.exponent - 1⟩ cs

def powerOfTen (n : Nat) : Float := Float.ofScientific 1 false n

/-- Largest power of ten that is a double. -/
def maxPower : Nat := 308

/-- Scales by at most `10 ^ 308` a step; the fuel bounds the steps.  Nothing is returned for a
number beyond the largest double. -/
def scale : Nat → Float → Int → Option Float
  | fuel, x, e =>
    if e.natAbs ≤ maxPower then
      if 0 ≤ e then
        let y := x * powerOfTen e.natAbs
        if y.isInf then none else some y
      else some (x / powerOfTen e.natAbs)
    else if x == 0 then some x
    else if 0 ≤ e then none
    else match fuel with
      | 0 => some 0
      | fuel + 1 => scale fuel (x / powerOfTen maxPower) (e + maxPower)

def Digits.float? (d : Digits) : Option Float := scale 8 (Float.ofNat d.significand) d.exponent

/-- Largest exponent that is looked at. -/
def maxExponent : Nat := UInt32.size / 2 - 1

/-- An exponent after its letter, and what follows it. -/
def readExponent (cs : List Char) : Option (Int × List Char) :=
  let (minus, cs) := match cs with
    | '+' :: r => (false, r)
    | '-' :: r => (true, r)
    | r => (false, r)
  let (ds, rest) := Decimal.spanDigits cs
  if ds.isEmpty then none
  else
    let n := Int.ofNat (Decimal.ofDigits ds)
    some (if minus then -n else n, rest)

def ofFloat? (minus : Bool) : Option Float → Json
  | some x => real (if minus then -x else x)
  | none => tooLarge

/-- A number, and what follows it. -/
def readNumber (cs : List Char) : Option (Json × List Char) :=
  let (minus, cs) := match cs with
    | '-' :: r => (true, r)
    | r => (false, r)
  let (whole, rest) := Decimal.spanDigits cs
  let leadingZero := match whole with
    | '0' :: _ :: _ => true
    | _ => false
  if whole.isEmpty || leadingZero then none
  else
    let digits := wholeDigits ⟨0, 0⟩ whole
    let fraction? := match rest with
      | '.' :: r => some (Decimal.spanDigits r)
      | _ => none
    match fraction? with
    | some ([], _) => none
    | _ =>
      let (digits, rest) := match fraction? with
        | some (ds, r) => (fractionDigits digits ds, r)
        | none => (digits, rest)
      let exponent? := match rest with
        | 'e' :: r => some (readExponent r)
        | 'E' :: r => some (readExponent r)
        | _ => none
      match exponent? with
      | some none => none
      | some (some (e, r)) =>
        let value :=
          if e.natAbs ≤ maxExponent then
            Digits.float? { digits with exponent := digits.exponent + e }
          else if digits.significand = 0 ∨ e < 0 then some 0
          else none
        some (ofFloat? minus value, r)
      | none =>
        if fraction?.isSome || 0 < digits.exponent then
          some (ofFloat? minus digits.float?, rest)
        else if !minus then some (natural digits.significand, rest)
        else if digits.significand = 0 ∨ UInt64.size / 2 < digits.significand then
          some (real (-Float.ofNat digits.significand), rest)
        else some (Json.negative digits.significand, rest)

end Json
end Galley
