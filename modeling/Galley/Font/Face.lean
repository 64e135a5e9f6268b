/-
Faces that are read from font programs.  A face is known by what it answers; how a program is read
is left to a `FaceReader`.
-/

namespace Galley
namespace Font

structure Face where
  unitsPerEm : Nat
  /-- The glyph of a character. -/
  glyph? : Char → Option UInt16
  /-- Advance of a glyph in font units. -/
  advance? : Nat → Option Nat
  ascender : Int
  descender : Int
  lineGap : Int
  capitalHeight : Option Int
  /-- Smallest box around all glyphs: left, bottom, right, top. -/
  box : Int × Int × Int × Int

/-- Reads the programs of faces.  A program that is none has no face. -/
class FaceReader where
  face? : ByteArray → Option Face

namespace Face

/-- Characters that text in the face may use. -/
def isMapped (c : Char) : Bool := 0x20 ≤ c.toNat && c.toNat ≤ 0xFFFF

/-- The glyph that text shows for a character. -/
def textGlyph? (f : Face) (c : Char) : Option UInt16 := if isMapped c then f.glyph? c else none

/-- Width of characters without a glyph: that of a space, or half an em. -/
def defaultAdvance (f : Face) : Nat :=
  let space := match f.textGlyph? ' ' with
    | some glyph => (f.advance? glyph.toNat).getD 0
    | none => 0
  if space = 0 then f.unitsPerEm / 2 else space

/-- Width of a character in font units. -/
def charAdvance (f : Face) (c : Char) : Nat :=
  match f.textGlyph? c with
  | some glyph => (f.advance? glyph.toNat).getD 0
  | none => f.defaultAdvance

end Face
end Font
end Galley
