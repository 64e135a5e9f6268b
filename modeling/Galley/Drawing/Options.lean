import Galley.Pdf.TextObject

/-
How a block of lines is drawn.
-/

namespace Galley
namespace Drawing

open Pdf Style

/-- A rotation around the upper left corner of a block, counter-clockwise. -/
structure Rotation (α : Type) where
  degrees : α
  cos : α
  sin : α
  deriving Repr

namespace Rotation

/-- Half the circumference of a circle by its radius, as a double. -/
def pi : Float := 3.141592653589793

def ofDegrees (degrees : Float) : Rotation Float :=
  let angle := degrees * (pi / 180)
  { degrees, cos := angle.cos, sin := angle.sin }

end Rotation

structure DrawOptions (α : Type) where
  /-- Alignment of lines whose style asks for none. -/
  align : TextAlign
  /-- Room added between lines. -/
  spacing : α
  rotation : Option (Rotation α)
  renderMode : Option RenderMode
  deriving Repr

end Drawing
end Galley
