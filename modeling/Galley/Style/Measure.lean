import Galley.Decimal.Reading
import Galley.Error
import Galley.Scalar
import Galley.Table
import Galley.Text.Blank

/-
Dimensions as they are written: plain numbers, numbers with a unit such as `3em` or `+2pt`, and
names such as `large` that stand for another measure.
-/

namespace Galley
namespace Style

inductive Measure (α : Type) where
  | points (size : α)
  | expr (text : String)
  deriving Repr, DecidableEq

/-- A signed number counts from the current size, up or down. -/
inductive Sign where
  | plus
  | minus
  | absolute
  deriving Repr, DecidableEq

/-- A number with its sign and what is written after it. -/
structure Dimension (α : Type) where
  sign : Sign
  number : α
  unit : String
  deriving Repr

/-- What a measure may be relative to. -/
structure MeasureContext (α : Type) where
  /-- Base of percentages. -/
  relative : α
  /-- Base of the em. -/
  em : α
  /-- Base of signed values. -/
  current : α
  aliases : Table (Measure α) := .empty

namespace MeasureContext

variable {α : Type} [Scalar α]

def standard : MeasureContext α := { relative := 0, em := ((12 : Nat) : α), current := 0 }

end MeasureContext

namespace Dimension

variable {α : Type} [Scalar α]

def splitSign : List Char → Sign × List Char
  | '+' :: r => (.plus, r)
  | '-' :: r => (.minus, r)
  | r => (.absolute, r)

/-- The fraction after whole digits.  A point without a digit after it is part of the unit. -/
def splitFraction : List Char → List Char × List Char
  | '.' :: r => match Decimal.spanDigits r with
    | ([], _) => ([], '.' :: r)
    | (ds, rest) => (ds, rest)
  | r => ([], r)

/-- Reads a sign, digits with an optional fraction, and a unit.  Without a digit there is no
dimension. -/
def ofChars? (cs : List Char) : Option (Dimension α) :=
  let (sign, unsigned) := splitSign cs
  match Decimal.spanDigits unsigned with
  | ([], _) => none
  | (whole, rest) =>
    let (fraction, unit) := splitFraction rest
    some {
      sign
      number := Scalar.decimal (Decimal.ofDigits (whole ++ fraction)) fraction.length
      unit := String.ofList (Text.trimBlanks unit) }

/-- Size in points, before the sign counts. -/
def points? (d : Dimension α) (ctx : MeasureContext α) : Option α :=
  match d.unit with
  | "" | "pt" => some d.number
  | "pc" => some (d.number * ((12 : Nat) : α))
  | "in" => some (d.number * ((72 : Nat) : α))
  | "%" => some (ctx.relative * d.number / ((100 : Nat) : α))
  | "em" => some (d.number * ctx.em)
  | _ => none

def resolve? (d : Dimension α) (ctx : MeasureContext α) : Option α :=
  (d.points? ctx).map fun size =>
    match d.sign with
    | .plus => ctx.current + size
    | .minus => ctx.current - size
    | .absolute => size

end Dimension

namespace Measure

variable {α : Type} [Scalar α]

/-- Names that may be followed one after another. -/
def maxAliases : Nat := 16

/-- Follows names until a dimension is reached.  `room` names may still be followed, and `seen`
are those followed so far; a name that comes again is a cycle even when no room is left. -/
def resolveIn (ctx : MeasureContext α) : Nat → List String → Measure α → Except Error α
  | _, _, points size => .ok size
  | room, seen, expr text =>
    let name := Text.trim text
    match Dimension.ofChars? name.toList with
    | some d =>
      match d.resolve? ctx with
      | some size => .ok size
      | none => .error (.style (.unsupportedUnit name d.unit))
    | none =>
      if name ∈ seen then .error (.style (.aliasCycle name seen))
      else match room with
        | 0 => .error (.style (.aliasTooDeep name maxAliases))
        | room + 1 =>
          match ctx.aliases.find? name with
          | none => .error (.style (.unknownMeasure name))
          | some target => resolveIn ctx room (seen ++ [name]) target

/-- The size in points. -/
def resolve (m : Measure α) (ctx : MeasureContext α) : Except Error α :=
  resolveIn ctx maxAliases [] m

end Measure
end Style
end Galley
