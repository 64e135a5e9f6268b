import Galley.Font.Service
import Galley.Style.Color
import Galley.Style.Registry

/-
The style in force.  Opening a tag derives a new state from the current one; the enclosing
states stay with it, so closing the tag goes back to the parent.
-/

namespace Galley
namespace Style

open Font

/-- What one state sets. -/
structure Setting (α : Type) where
  /-- Tells states apart that set the same values.  The states of one text have serials of their
  own. -/
  serial : Nat
  font : FontHandle
  family : String
  size : α
  fontStyle : FontStyle
  color : Color α
  kerning : Bool
  /-- Offset of the baseline in points, up is positive. -/
  rise : α
  decoration : Decoration
  /-- Alignment that an enclosing block asks for. -/
  align : Option TextAlign

structure StyleState (α : Type) extends Setting α where
  /-- The enclosing states, innermost first. -/
  ancestors : List (Setting α)

/-- Where a chain of states starts. -/
structure RootStyle (α : Type) where
  family : String
  size : α
  fontStyle : FontStyle
  color : Color α
  /-- Unset, kerning is on exactly when the face has kerning data. -/
  kerning : Option Bool

namespace RootStyle

variable {α : Type} [Scalar α]

def standard : RootStyle α :=
  { family := "Helvetica", size := ((12 : Nat) : α), fontStyle := .normal, color := .black,
    kerning := none }

end RootStyle

namespace StyleState

variable {α : Type} [Scalar α]

/-- Raised text goes up by this part of the surrounding size. -/
def superRise : α := Scalar.decimal 4 1

/-- Lowered text goes down by this part of the surrounding size. -/
def subDrop : α := Scalar.decimal 3 1

/-- The state that a text starts from.  The serials of a text count from here, so the roots of two
texts share one: what is said of lines from anywhere asks that their serials tell styles apart. -/
def root (fonts : FontService α) (style : RootStyle α) : StyleState α :=
  let font := fonts.find style.family style.fontStyle
  { serial := 0
    font
    family := style.family
    size := style.size
    fontStyle := style.fontStyle
    color := style.color
    kerning := style.kerning.getD (fonts.hasKerning font)
    rise := 0
    decoration := .none
    align := none
    ancestors := [] }

def parent? (s : StyleState α) : Option (StyleState α) :=
  match s.ancestors with
  | [] => none
  | p :: rest => some { p with ancestors := rest }

/-- Number of enclosing states. -/
def depth (s : StyleState α) : Nat := s.ancestors.length

/-- Weight and slant are set independently of each other. -/
def composeStyle (style : FontStyle) (weight : Option FontWeight) (slant : Option FontSlant) :
    FontStyle :=
  let style := match weight with
    | some .bold => style.compose { bold := true }
    | some .normal => { bold := false, italic := style.italic }
    | none => style
  match slant with
  | some .italic => style.compose { italic := true }
  | some .normal => { bold := style.bold, italic := false }
  | none => style

/-- What sizes are measured against inside a state. -/
def sizeContext (s : StyleState α) (registry : Registry α) : MeasureContext α :=
  { relative := s.size, em := s.size, current := s.size, aliases := registry.measures }

/-- What an indent is measured against inside a state. -/
def indentContext (s : StyleState α) (registry : Registry α) : MeasureContext α :=
  { relative := s.size, em := s.size, current := 0, aliases := registry.measures }

def requirePositive (size : α) : Except Error α :=
  if Scalar.isUndefined size || decide (size ≤ 0) then
    .error (.style (.notPositive (Scalar.shortest size)))
  else .ok size

/-- A new state under `s`, with the settings of a tag over those of `s`. -/
def derive (s : StyleState α) (serial : Nat) (delta : TagStyle α) (fonts : FontService α)
    (registry : Registry α) : Except Error (StyleState α) := do
  let fontStyle := composeStyle s.fontStyle delta.fontWeight delta.fontSlant
  let family := delta.fontFamily.getD s.family
  let size ← match delta.fontSize with
    | some measure => measure.resolve (s.sizeContext registry)
    | none => .ok s.size
  let size ← requirePositive size
  let color ← match delta.color with
    | some hex => Color.ofHex? hex
    | none => .ok s.color
  return {
    serial
    font := fonts.find family fontStyle
    family
    size
    fontStyle
    color
    kerning := delta.kerning.getD s.kerning
    rise := match delta.verticalAlign with
      | some .super => s.rise + superRise * s.size
      | some .sub => s.rise - subDrop * s.size
      | some .baseline => 0
      | none => s.rise
    decoration := delta.decoration.getD s.decoration
    align := delta.align.or s.align
    ancestors := s.toSetting :: s.ancestors }

end StyleState
end Style
end Galley
