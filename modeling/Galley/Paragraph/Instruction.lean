import Galley.Scalar
import Galley.Style.State
import Galley.Text.Blank

/-
The units of line breaking and drawing: each thing on a line bound to the style it was written
under, with its measurements.
-/

namespace Galley
namespace Paragraph

open Font Style

inductive Kind (α : Type) where
  | text (content : String)
  /-- Room that shows nothing. -/
  | strut (width : α)
  | tagOpen (tag : String)
  | tagClose (tag : String)
  /-- A link that starts here, an anchor that can be jumped to, or both. -/
  | linkStart (anchor target : Option String)
  | linkEnd
  | lineBreak
  | pageBreak
  | paragraphStart (indent : α)
  | paragraphEnd
  deriving Repr, DecidableEq

namespace Kind

variable {α : Type}

/-- Ends the line however much room is left. -/
def isForcedBreak : Kind α → Bool
  | lineBreak | pageBreak | paragraphEnd => true
  | _ => false

def isPageBreak : Kind α → Bool
  | pageBreak => true
  | _ => false

/-- Takes no room and shows nothing by itself. -/
def isMarker : Kind α → Bool
  | tagOpen _ | tagClose _ | linkStart .. | linkEnd | lineBreak | pageBreak | paragraphEnd => true
  | text _ | strut _ | paragraphStart _ => false

end Kind

structure Instruction (α : Type) where
  kind : Kind α
  state : StyleState α
  width : α
  height : α
  ascent : α
  descent : α
  /-- Spaces in the text; each takes a share of the room of a justified line. -/
  spaces : Nat
  /-- White space, which vanishes at the end of a line. -/
  discardable : Bool
  /-- A line may end after this. -/
  breakOpportunity : Bool

namespace Instruction

/-- Characters after which a line may end. -/
def isBreakChar (c : Char) : Bool := c = '-' || c = '\u2014' || c = '\u2013' || Text.isSpace c

section

variable {α : Type} [Scalar α]

/-- Measures a thing under a style.  Text first loses what the face cannot encode. -/
def ofKind (kind : Kind α) (state : StyleState α) (fonts : FontService α) : Instruction α :=
  let plain : Instruction α :=
    { kind
      state
      width := 0
      height := fonts.lineHeight state.font state.size
      ascent := fonts.ascender state.font state.size + state.rise
      descent := fonts.descender state.font state.size + state.rise
      spaces := 0
      discardable := false
      breakOpportunity := false }
  match kind with
  | .text content =>
    let shown := fonts.normalize state.font content
    let chars := shown.toList
    { plain with
      kind := .text shown
      width := fonts.textWidth state.font shown state.size state.kerning
      spaces := chars.count ' '
      discardable := chars.any Text.isSpace
      breakOpportunity := chars.any isBreakChar }
  | .strut width => { plain with width }
  | .paragraphStart indent => { plain with width := indent }
  | _ => plain

def ofText (content : String) (state : StyleState α) (fonts : FontService α) : Instruction α :=
  ofKind (.text content) state fonts

def strut (width : α) (state : StyleState α) (fonts : FontService α) : Instruction α :=
  ofKind (.strut width) state fonts

/-- Width that remains at the end of a line. -/
def solidWidth (i : Instruction α) : α := if i.discardable then 0 else i.width

/-- Width that vanishes at the end of a line. -/
def looseWidth (i : Instruction α) : α := if i.discardable then i.width else 0

/-- Takes room on the line even at its end. -/
def isVisible (i : Instruction α) : Bool := decide (0 < i.solidWidth)

end

variable {α : Type}

/-- Lets a line end after this whatever it holds. -/
def breakable (i : Instruction α) : Instruction α := { i with breakOpportunity := true }

def text? (i : Instruction α) : Option String :=
  match i.kind with
  | .text content => some content
  | _ => none

def isForcedBreak (i : Instruction α) : Bool := i.kind.isForcedBreak

def isPageBreak (i : Instruction α) : Bool := i.kind.isPageBreak

def isMarker (i : Instruction α) : Bool := i.kind.isMarker

end Instruction
end Paragraph
end Galley
