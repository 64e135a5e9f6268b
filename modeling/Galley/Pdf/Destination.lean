import Galley.Decimal.Fixed
import Galley.Decimal.Reading
import Galley.Error
import Galley.Pdf.Value
import Galley.Scalar
import Galley.Text.Blank

/-
Places in a document that links can jump to.
-/

namespace Galley
namespace Pdf

/-- How a viewer frames a place. -/
inductive View (α : Type) where
  /-- A point at the upper left, magnified if a factor is given. -/
  | point (left top : α) (zoom : Option Float)
  | page
  | pageWidth (top : α)
  | pageHeight (left : α)
  | box
  | boxWidth (top : α)
  | boxHeight (left : α)
  deriving Repr

namespace View

variable {α : Type} [Scalar α]

/-- Splits at the first colon. -/
def splitColon? (cs : List Char) : Option (List Char × List Char) :=
  match cs.dropWhile (· ≠ ':') with
  | _ :: rest => some (cs.takeWhile (· ≠ ':'), rest)
  | [] => none

/-- Label and view of an anchor.  Its name may start with the view to take: `fit:`, `fith:` and
the like, or `zoom=` with a factor.  Any other name is the label of a point. -/
def ofAnchor (name : String) (left top : α) : Except Error (String × View α) :=
  let plain := (name, point left top none)
  match splitColon? name.toList with
  | none => .ok plain
  | some (directive, label) =>
    let label := String.ofList label
    match String.ofList directive with
    | "fit" => .ok (label, page)
    | "fith" => .ok (label, pageWidth top)
    | "fitv" => .ok (label, pageHeight left)
    | "fitb" => .ok (label, box)
    | "fitbh" => .ok (label, boxWidth top)
    | "fitbv" => .ok (label, boxHeight left)
    | _ =>
      match directive with
      | 'z' :: 'o' :: 'o' :: 'm' :: '=' :: factor =>
        match Decimal.float? (Text.trimBlanks factor) with
        | some zoom => .ok (label, point left top (some zoom))
        | none => .error (.style (.badZoom (String.ofList factor)))
      | _ => .ok plain

/-- What follows the page in the array of a destination. -/
def operands : View α → List Value
  | point left top zoom =>
    [.name "XYZ", .number (Scalar.fixed 2 left), .number (Scalar.fixed 2 top),
      match zoom with
      | some z => .number (Decimal.fixedFloat 3 z)
      | none => .null]
  | page => [.name "Fit"]
  | pageWidth top => [.name "FitH", .number (Scalar.fixed 2 top)]
  | pageHeight left => [.name "FitV", .number (Scalar.fixed 2 left)]
  | box => [.name "FitB"]
  | boxWidth top => [.name "FitBH", .number (Scalar.fixed 2 top)]
  | boxHeight left => [.name "FitBV", .number (Scalar.fixed 2 left)]

/-- The view on a page. -/
def toValue (v : View α) (page : Value) : Value := .array (page :: v.operands)

end View
end Pdf
end Galley
