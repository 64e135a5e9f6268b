import Galley.Font.Face
import Galley.Font.Service
import Galley.Pdf.ToUnicode
import Galley.Pdf.Value

/-
The objects of a font program that travels with the document.  Text is encoded in the glyph
numbers of the program itself, so the whole program is carried along.
-/

namespace Galley
namespace Pdf

open Font

/-- Glyphs of the characters that were shown.  The characters come in ascending order; of two
with one glyph the later is kept. -/
def usedGlyphs (face : Face) (used : List Char) : ToUnicode.GlyphMap :=
  used.foldl (fun glyphs c =>
    match face.glyph? c with
    | some glyph => ToUnicode.insert glyph.toNat c glyphs
    | none => glyphs) []

/-- Font units to thousandths of an em, without the fraction. -/
def perThousand (perEm : Nat) (units : Int) : Int :=
  (Float.ofInt units * (1000 / Float.ofNat perEm)).toInt64.toInt

def descriptor (face : Face) (font : EmbeddedFont) (file : Nat) : Value :=
  let scale := perThousand face.unitsPerEm
  let (left, bottom, right, top) := face.box
  .dict [("Type", .name "FontDescriptor"), ("FontName", .name font.name), ("Flags", .integer 4),
    ("FontBBox", .array ([left, bottom, right, top].map fun n => .integer (scale n))),
    ("ItalicAngle", .integer (if font.style.italic then -12 else 0)),
    ("Ascent", .integer (scale face.ascender)), ("Descent", .integer (scale face.descender)),
    ("CapHeight", .integer (scale (face.capitalHeight.getD face.ascender))),
    ("StemV", .integer (if font.style.bold then 120 else 80)), ("FontFile2", .ref file)]

def cidFont (face : Face) (font : EmbeddedFont) (glyphs : ToUnicode.GlyphMap)
    (descriptor : Nat) : Value :=
  let width (glyph : Nat) : Option Int :=
    (face.advance? glyph).map fun n => perThousand face.unitsPerEm n
  .dict [("Type", .name "Font"), ("Subtype", .name "CIDFontType2"),
    ("BaseFont", .name font.name),
    ("CIDSystemInfo", .dict [("Registry", .bytes (utf8 "Adobe")),
      ("Ordering", .bytes (utf8 "Identity")), ("Supplement", .integer 0)]),
    ("FontDescriptor", .ref descriptor), ("DW", .integer ((width 0).getD 1000)),
    ("W", .wideArray (glyphs.flatMap fun (glyph, _) =>
      [.integer glyph, .array [.integer ((width glyph).getD 0)]])),
    ("CIDToGIDMap", .name "Identity")]

/-- The objects of a font, the first of which has the number `first`, or nothing when the
program cannot be read.  The last of them is the font itself. -/
def embed? [FaceReader] (first : Nat) (font : EmbeddedFont) (used : List Char) :
    Option (List Object) :=
  (FaceReader.face? font.program).map fun face =>
    let glyphs := usedGlyphs face used
    [.stream [("Length1", .integer font.program.size)] font.program.toList,
      .value (descriptor face font first),
      .value (cidFont face font glyphs (first + 1)),
      .stream [] (utf8 (ToUnicode.write glyphs (nameText font.name))),
      .value (.dict [("Type", .name "Font"), ("Subtype", .name "Type0"),
        ("BaseFont", .name font.name), ("Encoding", .name "Identity-H"),
        ("DescendantFonts", .array [.ref (first + 2)]), ("ToUnicode", .ref (first + 3))])]

/-- A font that every viewer carries. -/
def plainFont (name : String) : Value :=
  .dict [("Type", .name "Font"), ("Subtype", .name "Type1"), ("BaseFont", .name name),
    ("Encoding", .name "WinAnsiEncoding")]

end Pdf
end Galley
