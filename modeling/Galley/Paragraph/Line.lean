import Galley.Paragraph.Instruction

/-
Finished lines.
-/

namespace Galley
namespace Paragraph

structure Line (α : Type) where
  instructions : List (Instruction α)
  width : α
  height : α
  ascent : α
  descent : α
  /-- Shares that the room of a justified line is split into, at least one. -/
  spaces : Nat
  /-- Ended by a forced break or by the end of the text, and so never justified. -/
  hardBreak : Bool
  /-- What follows belongs to the next column. -/
  pageBreak : Bool

namespace Line

variable {α : Type}

/-- Drops white space from the front of a reversed line, also behind markers. -/
def trimReversed : List (Instruction α) → List (Instruction α)
  | [] => []
  | i :: rest =>
    if i.discardable then trimReversed rest
    else if i.isMarker then i :: trimReversed rest
    else i :: rest

/-- Drops the white space that ends a line, also where markers come after it. -/
def trim (items : List (Instruction α)) : List (Instruction α) :=
  (trimReversed items.reverse).reverse

section

variable [Scalar α]

/-- A line of exactly these instructions. -/
def measured (items : List (Instruction α)) (hardBreak pageBreak : Bool) : Line α :=
  { instructions := items
    width := items.foldl (fun w i => w + i.width) 0
    height := items.foldl (fun h i => Scalar.larger h i.height) 0
    ascent := items.foldl (fun a i => Scalar.larger a i.ascent) 0
    descent := items.foldl (fun d i => Scalar.smaller d i.descent) 0
    spaces := max (items.foldl (fun n i => n + i.spaces) 0) 1
    hardBreak
    pageBreak }

/-- Ends a line.  White space at its end is dropped. -/
def ofInstructions (items : List (Instruction α)) (hardBreak : Bool) : Line α :=
  let kept := trim items
  measured kept hardBreak (kept.any Instruction.isPageBreak)

/-- Fills a line up to a width with a strut. -/
def padTo (line : Line α) (width : α) (strut : α → Instruction α) : Line α :=
  let room := width - line.width
  if 0 < room then
    measured (line.instructions ++ [strut room]) line.hardBreak line.pageBreak
  else line

end

def isEmpty (line : Line α) : Bool := line.instructions.isEmpty

/-- The text that the line shows. -/
def text (line : Line α) : String := String.join (line.instructions.filterMap Instruction.text?)

end Line
end Paragraph
end Galley
