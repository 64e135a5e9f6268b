import Galley.Drawing.Options
import Galley.Paragraph.Typesetter

/-
What a caller can choose about layout and drawing.
-/

namespace Galley

open Drawing Paragraph Pdf Style

structure Options (α : Type) where
  fontFamily : String
  fontSize : α
  fontStyle : FontStyle
  /-- Hexadecimal digits. -/
  color : String
  /-- Unset, kerning is on exactly when the face has kerning data. -/
  kerning : Option Bool
  align : TextAlign
  /-- Room added between lines. -/
  spacing : α
  mode : WrapMode
  algorithm : Algorithm
  optimal : OptimalConfig α
  columns : Nat
  /-- Room between columns. -/
  gap : α
  /-- A fixed upper left corner.  Text with one does not flow. -/
  corner : Option (α × α)
  /-- Rotation around the fixed corner. -/
  rotation : Option (Rotation α)
  renderMode : Option String

namespace Options

variable {α : Type} [Scalar α]

def standard : Options α :=
  { fontFamily := "Helvetica"
    fontSize := ((12 : Nat) : α)
    fontStyle := .normal
    color := "000000"
    kerning := none
    align := .left
    spacing := 0
    mode := .word
    algorithm := .greedy
    optimal := .standard
    columns := 1
    gap := ((18 : Nat) : α)
    corner := none
    rotation := none
    renderMode := none }

omit [Scalar α] in
def drawOptions (o : Options α) : Except Error (DrawOptions α) := do
  let renderMode ← match o.renderMode with
    | some word => (RenderMode.ofWord? word).map some
    | none => .ok none
  return { align := o.align, spacing := o.spacing, rotation := o.rotation, renderMode }

/-- Refuses what makes no sense, before any layout. -/
def validate (o : Options α) : Except Error Unit := do
  if o.rotation.isSome && o.corner.isNone then throw (.usage .rotationWithoutPosition)
  if o.columns = 0 then throw (.usage .noColumns)
  let _ ← StyleState.requirePositive o.fontSize
  let _ ← o.drawOptions
  let _ ← Color.ofHex? (α := α) o.color
  return ()

def rootStyle (o : Options α) : Except Error (RootStyle α) := do
  let color ← Color.ofHex? o.color
  return {
    family := o.fontFamily
    size := o.fontSize
    fontStyle := o.fontStyle
    color
    kerning := o.kerning }

end Options
end Galley
