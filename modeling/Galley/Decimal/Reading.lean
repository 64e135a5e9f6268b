import Galley.Text.Case

/-
Numbers written in text: an optional sign, then digits with an optional point and an optional
exponent, or one of the words for what is not finite.
-/

namespace Galley
namespace Decimal

/-- The number that a list of decimal digits spells. -/
def ofDigits (cs : List Char) : Nat :=
  cs.foldl (fun n c => 10 * n + (c.toNat - '0'.toNat)) 0

/-- Leading digits and what follows them. -/
def spanDigits (cs : List Char) : List Char × List Char :=
  (cs.takeWhile Char.isDigit, cs.dropWhile Char.isDigit)

/-- `n · 10 ^ e` as a double.  Exponents beyond the range of doubles are decided before the
power is formed. -/
def scaled (n : Nat) (e : Int) : Float :=
  let size : Int := (Nat.toDigits 10 n).length
  if n = 0 then 0
  else if size + e > 400 then 1 / 0
  else if size + e < -400 then 0
  else if 0 ≤ e then Float.ofScientific n false e.toNat
  else Float.ofScientific n true (-e).toNat

/-- At least one digit and nothing else. -/
def digits? (ds : List Char) : Option Nat :=
  if ds.isEmpty || !ds.all Char.isDigit then none else some (ofDigits ds)

/-- Digits after an optional plus sign. -/
def natural? : List Char → Option Nat
  | '+' :: ds => digits? ds
  | ds => digits? ds

/-- Digits after an optional sign. -/
def exponent? : List Char → Option Int
  | '-' :: ds => (digits? ds).map fun n => -Int.ofNat n
  | ds => (natural? ds).map Int.ofNat

/-- A number without sign.  One of the sides of the point may be empty, not both. -/
def magnitude? (cs : List Char) : Option Float :=
  let (whole, rest) := spanDigits cs
  let (fraction, rest) := match rest with
    | '.' :: r => spanDigits r
    | r => ([], r)
  if whole.isEmpty && fraction.isEmpty then none
  else
    let n := ofDigits (whole ++ fraction)
    let places : Int := fraction.length
    match rest with
    | [] => some (scaled n (-places))
    | c :: r =>
      if c = 'e' ∨ c = 'E' then (exponent? r).map fun e => scaled n (e - places) else none

/-- A whole text read as a double. -/
def float? (cs : List Char) : Option Float :=
  let (negative, body) := match cs with
    | '+' :: r => (false, r)
    | '-' :: r => (true, r)
    | r => (false, r)
  let word := Text.lowercase body
  let size := if word = "inf" ∨ word = "infinity" then some (1 / 0)
    else if word = "nan" then some (0 / 0)
    else magnitude? body
  size.map fun x => if negative then -x else x

end Decimal
end Galley
