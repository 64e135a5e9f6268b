import Galley.Font.Service
import Galley.Pdf.Escape
import Galley.Scalar
import Galley.Style.Color
import Galley.Style.TagStyle

/-
Text objects: lists of operators, and how they are written in a page.
-/

namespace Galley
namespace Pdf

open Font Style

/-- How glyphs are painted. -/
inductive RenderMode where
  | fill
  | stroke
  | fillStroke
  | invisible
  | fillClip
  | strokeClip
  | fillStrokeClip
  | clip
  deriving Repr, DecidableEq

namespace RenderMode

def words : List (String × RenderMode) :=
  [("fill", fill), ("stroke", stroke), ("fill_stroke", fillStroke), ("invisible", invisible),
    ("fill_clip", fillClip), ("stroke_clip", strokeClip), ("fill_stroke_clip", fillStrokeClip),
    ("clip", clip)]

def operand : RenderMode → Nat
  | fill => 0
  | stroke => 1
  | fillStroke => 2
  | invisible => 3
  | fillClip => 4
  | strokeClip => 5
  | fillStrokeClip => 6
  | clip => 7

def ofWord? (word : String) : Except Error RenderMode := ofWord words .unknownRenderMode word

end RenderMode

inductive TextOp (α : Type) where
  /-- Starts a line of text at an offset from the start of the current one. -/
  | move (dx dy : α)
  | matrix (a b c d e f : α)
  | font (resource : String) (size : α)
  | fillColor (color : Color α)
  | rise (amount : α)
  | renderMode (mode : RenderMode)
  | glyphs (items : List (ShowItem α))
  deriving Repr

section

variable {α : Type} [Scalar α]

/-- Numbers with a set count of decimals, with a space after each. -/
def spacedNumbers (places : Nat) (xs : List α) : String :=
  String.join (xs.map fun x => Scalar.fixed places x ++ " ")

namespace TextOp

def writeItem : ShowItem α → String
  | .bytes data => "(" ++ escapeBytes data ++ ")"
  | .adjust amount => Scalar.fixed 3 amount

/-- The operator as a line of text.  One string is shown by itself, anything with displacements
as an array, and nothing at all leaves no line. -/
def write : TextOp α → String
  | move dx dy => spacedNumbers 2 [dx, dy] ++ "Td\n"
  | matrix a b c d e f => spacedNumbers 3 [a, b, c, d] ++ spacedNumbers 2 [e, f] ++ "Tm\n"
  | font resource size => "/" ++ resource ++ " " ++ spacedNumbers 2 [size] ++ "Tf\n"
  | fillColor color => spacedNumbers 3 [color.red, color.green, color.blue] ++ "rg\n"
  | rise amount => spacedNumbers 2 [amount] ++ "Ts\n"
  | renderMode mode => toString mode.operand ++ " Tr\n"
  | glyphs [] => ""
  | glyphs [.bytes data] => "(" ++ escapeBytes data ++ ") Tj\n"
  | glyphs items => "[" ++ String.intercalate " " (items.map writeItem) ++ "] TJ\n"

end TextOp

/-- A whole text object. -/
def writeTextObject (ops : List (TextOp α)) : String :=
  "BT\n" ++ String.join (ops.map TextOp.write) ++ "ET\n"

end

end Pdf
end Galley
