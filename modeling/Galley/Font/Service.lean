import Galley.Style.Kinds

/-
What layout and drawing ask of fonts.  Nothing else in this library looks into a face.
-/

namespace Galley
namespace Font

/-- A face that has been found. -/
structure FontHandle where
  index : Nat
  deriving Repr, DecidableEq, Inhabited

/-- One element of a show array. -/
inductive ShowItem (α : Type) where
  /-- Encoded glyphs. -/
  | bytes (data : List UInt8)
  /-- Moves the next glyph to the left, in thousandths of the font size. -/
  | adjust (amount : α)
  deriving Repr, DecidableEq

/-- Text that one font resource can show. -/
structure EncodedChunk (α : Type) where
  subset : Nat
  items : List (ShowItem α)
  deriving Repr, DecidableEq

/-- A font program that a document must carry. -/
structure EmbeddedFont where
  name : String
  program : ByteArray
  style : Style.FontStyle

structure FontService (α : Type) where
  /-- The face for a family and style.  There is always one. -/
  find : String → Style.FontStyle → FontHandle
  baseName : FontHandle → String
  /-- Width of a text at a size, with or without kerning. -/
  textWidth : FontHandle → String → α → Bool → α
  /-- From the baseline up to the top of the face. -/
  ascender : FontHandle → α → α
  /-- From the baseline down to the bottom of the face, negative. -/
  descender : FontHandle → α → α
  lineHeight : FontHandle → α → α
  hasKerning : FontHandle → Bool
  /-- Replaces what the face cannot encode. -/
  normalize : FontHandle → String → String
  encode : FontHandle → String → Bool → List (EncodedChunk α)
  embedded : FontHandle → Option EmbeddedFont

end Font
end Galley
