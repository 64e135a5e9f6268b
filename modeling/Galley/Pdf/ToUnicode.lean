import Galley.Text.Hex

/-
Maps from the glyphs of a font back to characters, so that text can be copied out of a document.
-/

namespace Galley
namespace Pdf
namespace ToUnicode

/-- Glyphs with their characters, the glyphs ascending. -/
abbrev GlyphMap := List (Nat × Char)

/-- Puts a glyph in its place, over an entry of the same glyph. -/
def insert (glyph : Nat) (c : Char) : GlyphMap → GlyphMap
  | [] => [(glyph, c)]
  | (g, d) :: rest =>
    if glyph = g then (glyph, c) :: rest
    else if glyph < g then (glyph, c) :: (g, d) :: rest
    else (g, d) :: insert glyph c rest

/-- One 16-bit unit, or two for a character of a supplementary plane. -/
def units (c : Char) : List Nat :=
  if c.toNat < 0x10000 then [c.toNat]
  else [0xD800 + (c.toNat - 0x10000) / 0x400, 0xDC00 + (c.toNat - 0x10000) % 0x400]

def entryLine (entry : Nat × Char) : String :=
  "<" ++ String.ofList (Text.upperHex 4 entry.1) ++ "> <" ++
    String.ofList ((units entry.2).flatMap (Text.upperHex 4)) ++ ">\n"

/-- Most entries that one block may hold. -/
def blockSize : Nat := 100

/-- Blocks of entries, each with its count; the fuel bounds their number. -/
def blocks : Nat → GlyphMap → List GlyphMap
  | 0, _ => []
  | fuel + 1, entries =>
    if entries.isEmpty then []
    else entries.take blockSize :: blocks fuel (entries.drop blockSize)

def writeBlock (entries : GlyphMap) : String :=
  toString entries.length ++ " beginbfchar\n" ++ String.join (entries.map entryLine) ++
    "endbfchar\n"

/-- The map of a font as a program for the viewer; `name` is the font's name as written. -/
def write (entries : GlyphMap) (name : String) : String :=
  "/CIDInit /ProcSet findresource begin\n12 dict begin\nbegincmap\n" ++
    "/CIDSystemInfo\n<< /Registry (Adobe) /Ordering (UCS) /Supplement 0 >> def\n" ++
    "/CMapName /" ++ name ++ "-UTF16 def\n" ++
    "/CMapType 2 def\n1 begincodespacerange\n<0000> <FFFF>\nendcodespacerange\n" ++
    String.join ((blocks entries.length entries).map writeBlock) ++
    "endcmap\nCMapName currentdict /CMap defineresource pop\nend\nend\n"

end ToUnicode
end Pdf
end Galley
