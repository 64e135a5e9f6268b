import Galley.Scalar

/-
Glyph metrics of the standard faces, in thousandths of an em.  Printable ASCII and the few
typographic characters that markup produces have widths of their own; any other character takes
the fallback width.  Slanted faces share the widths of their upright face.
-/

namespace Galley
namespace Font

structure StandardMetrics where
  /-- Widths from U+0020 to U+007E. -/
  widths : Array Nat
  ascender : Int
  descender : Int
  /-- Height of the font's bounding box, used as line height. -/
  lineHeight : Nat
  enDash : Nat
  singleQuote : Nat
  doubleQuote : Nat
  fallback : Nat
  kernPairs : List (Char × Char × Int)
  deriving Repr

namespace StandardMetrics

def glyphWidth (m : StandardMetrics) (c : Char) : Nat :=
  if 0x20 ≤ c.toNat ∧ c.toNat ≤ 0x7e then (m.widths[c.toNat - 0x20]?).getD m.fallback
  else if c = '\u00a0' then (m.widths[0]?).getD m.fallback
  else if c = '\u2013' then m.enDash
  else if c = '\u2014' ∨ c = '\u2026' then 1000
  else if c = '\u2018' ∨ c = '\u2019' then m.singleQuote
  else if c = '\u201c' ∨ c = '\u201d' then m.doubleQuote
  else m.fallback

/-- Change of the distance between two characters; zero for a pair that is not listed. -/
def kern (m : StandardMetrics) (left right : Char) : Int :=
  match m.kernPairs.find? fun (l, r, _) => l = left && r = right with
  | some (_, _, k) => k
  | none => 0

def hasKerning (m : StandardMetrics) : Bool := !m.kernPairs.isEmpty

/-- Width of a text whose last character so far is `last`. -/
def unitsAfter (m : StandardMetrics) (kerning : Bool) : Option Char → List Char → Int
  | _, [] => 0
  | last, c :: cs =>
    let k := match last with
      | some l => if kerning then m.kern l c else 0
      | none => 0
    m.glyphWidth c + k + m.unitsAfter kerning (some c) cs

/-- Width of a text, with the kerning of its pairs if asked for. -/
def units (m : StandardMetrics) (kerning : Bool) (text : List Char) : Int :=
  m.unitsAfter kerning none text

end StandardMetrics

/-- The faces that every viewer carries. -/
inductive StandardFont where
  | helvetica
  | helveticaBold
  | helveticaOblique
  | helveticaBoldOblique
  | timesRoman
  | timesBold
  | timesItalic
  | timesBoldItalic
  | courier
  | courierBold
  | courierOblique
  | courierBoldOblique
  deriving Repr, DecidableEq, Inhabited

namespace StandardFont

def all : List StandardFont :=
  [helvetica, helveticaBold, helveticaOblique, helveticaBoldOblique, timesRoman, timesBold,
    timesItalic, timesBoldItalic, courier, courierBold, courierOblique, courierBoldOblique]

def name : StandardFont → String
  | helvetica => "Helvetica"
  | helveticaBold => "Helvetica-Bold"
  | helveticaOblique => "Helvetica-Oblique"
  | helveticaBoldOblique => "Helvetica-BoldOblique"
  | timesRoman => "Times-Roman"
  | timesBold => "Times-Bold"
  | timesItalic => "Times-Italic"
  | timesBoldItalic => "Times-BoldItalic"
  | courier => "Courier"
  | courierBold => "Courier-Bold"
  | courierOblique => "Courier-Oblique"
  | courierBoldOblique => "Courier-BoldOblique"

def ofName? (name : String) : Option StandardFont := all.find? fun f => f.name = name

/-! ## Tables -/

def helveticaWidths : Array Nat :=
  #[278, 278, 355, 556, 556, 889, 667, 191, 333, 333, 389, 584, 278, 333, 278, 278, 556,
    556, 556, 556, 556, 556, 556, 556, 556, 556, 278, 278, 584, 584, 584, 556, 1015, 667,
    667, 722, 722, 667, 611, 778, 722, 278, 500, 667, 556, 833, 722, 778, 667, 778, 722,
    667, 611, 722, 667, 944, 667, 667, 611, 278, 278, 278, 469, 556, 333, 556, 556, 500,
    556, 556, 278, 556, 556, 222, 222, 500, 222, 833, 556, 556, 556, 556, 333, 500, 278,
    556, 500, 722, 500, 500, 500, 334, 260, 334, 584]

def helveticaBoldWidths : Array Nat :=
  #[278, 333, 474, 556, 556, 889, 722, 238, 333, 333, 389, 584, 278, 333, 278, 278, 556,
    556, 556, 556, 556, 556, 556, 556, 556, 556, 333, 333, 584, 584, 584, 611, 975, 722,
    722, 722, 722, 667, 611, 778, 722, 278, 556, 722, 611, 833, 722, 778, 667, 778, 722,
    667, 611, 722, 667, 944, 667, 667, 611, 333, 278, 333, 584, 556, 333, 556, 611, 556,
    611, 556, 333, 611, 611, 278, 278, 556, 278, 889, 611, 611, 611, 611, 389, 556, 333,
    611, 556, 778, 556, 556, 500, 389, 280, 389, 584]

def timesRomanWidths : Array Nat :=
  #[250, 333, 408, 500, 500, 833, 778, 180, 333, 333, 500, 564, 250, 333, 250, 278, 500,
    500, 500, 500, 500, 500, 500, 500, 500, 500, 278, 278, 564, 564, 564, 444, 921, 722,
    667, 667, 722, 611, 556, 722, 722, 333, 389, 722, 611, 889, 722, 722, 556, 722, 667,
    556, 611, 722, 722, 944, 722, 722, 611, 333, 278, 333, 469, 500, 333, 444, 500, 444,
    500, 444, 333, 500, 500, 278, 278, 500, 278, 778, 500, 500, 500, 500, 333, 389, 278,
    500, 500, 722, 500, 500, 444, 480, 200, 480, 541]

def timesBoldWidths : Array Nat :=
  #[250, 333, 555, 500, 500, 1000, 833, 278, 333, 333, 500, 570, 250, 333, 250, 278, 500,
    500, 500, 500, 500, 500, 500, 500, 500, 500, 333, 333, 570, 570, 570, 500, 930, 722,
    667, 722, 722, 667, 611, 778, 778, 389, 500, 778, 667, 944, 722, 778, 611, 778, 722,
    556, 667, 722, 722, 1000, 722, 722, 667, 333, 278, 333, 581, 500, 333, 500, 556, 444,
    556, 444, 333, 500, 556, 278, 333, 556, 278, 833, 556, 500, 556, 556, 444, 389, 333,
    556, 500, 722, 500, 500, 444, 394, 220, 394, 520]

def courierWidths : Array Nat := Array.replicate 95 600

def helveticaKerning : List (Char × Char × Int) :=
  [('A', 'T', -120), ('A', 'V', -70), ('A', 'W', -50), ('A', 'Y', -100), ('L', 'T', -110),
    ('L', 'V', -110), ('L', 'W', -70), ('L', 'Y', -140), ('T', 'a', -120), ('T', 'o', -120),
    ('V', 'a', -70), ('Y', 'o', -140)]

def timesKerning : List (Char × Char × Int) :=
  [('A', 'T', -111), ('A', 'V', -135), ('A', 'W', -90), ('A', 'Y', -105), ('L', 'T', -92),
    ('L', 'V', -100), ('L', 'W', -74), ('L', 'Y', -100), ('T', 'a', -80), ('T', 'o', -80),
    ('V', 'a', -111), ('Y', 'o', -100)]

def helveticaMetrics : StandardMetrics :=
  { widths := helveticaWidths, ascender := 718, descender := -207, lineHeight := 1156,
    enDash := 556, singleQuote := 222, doubleQuote := 333, fallback := 556,
    kernPairs := helveticaKerning }

def helveticaBoldMetrics : StandardMetrics :=
  { widths := helveticaBoldWidths, ascender := 718, descender := -207, lineHeight := 1156,
    enDash := 556, singleQuote := 278, doubleQuote := 500, fallback := 611,
    kernPairs := helveticaKerning }

def timesRomanMetrics : StandardMetrics :=
  { widths := timesRomanWidths, ascender := 683, descender := -217, lineHeight := 1116,
    enDash := 500, singleQuote := 333, doubleQuote := 444, fallback := 500,
    kernPairs := timesKerning }

def timesBoldMetrics : StandardMetrics :=
  { widths := timesBoldWidths, ascender := 683, descender := -217, lineHeight := 1116,
    enDash := 500, singleQuote := 333, doubleQuote := 500, fallback := 500,
    kernPairs := timesKerning }

def courierMetrics : StandardMetrics :=
  { widths := courierWidths, ascender := 629, descender := -157, lineHeight := 1055,
    enDash := 600, singleQuote := 600, doubleQuote := 600, fallback := 600,
    kernPairs := [] }

def metrics : StandardFont → StandardMetrics
  | helvetica | helveticaOblique => helveticaMetrics
  | helveticaBold | helveticaBoldOblique => helveticaBoldMetrics
  | timesRoman | timesItalic => timesRomanMetrics
  | timesBold | timesBoldItalic => timesBoldMetrics
  | courier | courierBold | courierOblique | courierBoldOblique => courierMetrics

end StandardFont
end Font
end Galley
