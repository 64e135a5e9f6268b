import Galley.Error
import Galley.Scalar
import Galley.Text.Hex

/-
Colours, and how they are written.
-/

namespace Galley
namespace Style

/-- Red, green and blue, each from 0 to 1. -/
structure Color (α : Type) where
  red : α
  green : α
  blue : α
  deriving Repr, BEq, DecidableEq

namespace Color

variable {α : Type} [Scalar α]

def black : Color α := ⟨0, 0, 0⟩

/-- A channel of two hexadecimal digits. -/
def channel (high low : Nat) : α := ((16 * high + low : Nat) : α) / ((255 : Nat) : α)

/-- Three or six hexadecimal digits after any number of number signs.  Each of three digits
stands for two. -/
def ofHex? (hex : String) : Except Error (Color α) :=
  match (hex.toList.dropWhile (· = '#')).mapM Text.hexValue? with
  | some [r, g, b] => .ok ⟨channel r r, channel g g, channel b b⟩
  | some [r, r', g, g', b, b'] => .ok ⟨channel r r', channel g g', channel b b'⟩
  | _ => .error (.style (.badColor hex))

end Color
end Style
end Galley
