import Galley.Font.Face
import Galley.Font.Service
import Galley.Font.Standard
import Galley.Font.WinAnsi
import Galley.Scalar
import Galley.Text.Case

/-
Faces by family and style.  The standard faces are always there; TrueType faces can be added.
-/

namespace Galley
namespace Font

open Style

/-- A TrueType face under the name that documents give it. -/
structure CustomFont where
  name : String
  program : ByteArray
  style : FontStyle
  /-- Missing when the program cannot be read.  Text is then measured and shown in
  Helvetica. -/
  face : Option Face

inductive FontEntry where
  | standard (font : StandardFont)
  | custom (font : CustomFont)

/-- Families are found in any case. -/
structure FontKey where
  family : String
  style : FontStyle
  deriving Repr, DecidableEq

namespace FontKey

def ofFamily (family : String) (style : FontStyle) : FontKey :=
  { family := Text.lowercase family.toList, style }

end FontKey

structure Catalog where
  entries : Array FontEntry
  /-- Places of the entries, the latest registration first. -/
  index : List (FontKey × Nat)

namespace Catalog

/-- Names under which a standard family is found, with its faces in the order normal, bold,
italic, bold italic. -/
def standardFamilies : List (List String × Nat) :=
  [(["Helvetica", "Arial"], 0), (["Times", "Times-Roman"], 4), (["Courier"], 8)]

/-- Place of a style among the four faces of a family. -/
def styleSlot (style : FontStyle) : Nat :=
  (if style.bold then 1 else 0) + (if style.italic then 2 else 0)

def styles : List FontStyle :=
  [⟨false, false⟩, ⟨true, false⟩, ⟨false, true⟩, ⟨true, true⟩]

def standard : Catalog :=
  { entries := (StandardFont.all.map FontEntry.standard).toArray
    index := standardFamilies.flatMap fun (names, first) =>
      names.flatMap fun name => styles.map fun style =>
        (.ofFamily name style, first + styleSlot style) }

/-- The face of a family, or Helvetica in the same style. -/
def find (c : Catalog) (family : String) (style : FontStyle) : FontHandle :=
  match c.index.lookup (.ofFamily family style) with
  | some place => ⟨place⟩
  | none => ⟨styleSlot style⟩

/-- A name that a document can carry, with suffixes for the style. -/
def documentName (family : String) (style : FontStyle) : String :=
  let base := String.ofList (family.toList.filter fun c => c.isAlphanum || c = '-' || c = '_')
  (if base.isEmpty then "CustomFont" else base) ++ (if style.bold then "-Bold" else "") ++
    (if style.italic then "-Italic" else "")

def register [FaceReader] (c : Catalog) (family : String) (style : FontStyle)
    (program : ByteArray) : Catalog :=
  { entries := c.entries.push (.custom {
      name := documentName family style
      program
      style
      face := FaceReader.face? program })
    index := (.ofFamily family style, c.entries.size) :: c.index }

def entry (c : Catalog) (handle : FontHandle) : FontEntry :=
  (c.entries[handle.index]?).getD (.standard .helvetica)

/-- What measures and encodes the text of an entry. -/
inductive Measured where
  | standard (metrics : StandardMetrics)
  | face (face : Face)

def measured (c : Catalog) (handle : FontHandle) : Measured :=
  match c.entry handle with
  | .standard font => .standard font.metrics
  | .custom { face := some face, .. } => .face face
  | .custom { face := none, .. } => .standard StandardFont.helvetica.metrics

def baseName (c : Catalog) (handle : FontHandle) : String :=
  match c.entry handle with
  | .standard font => font.name
  | .custom { face := some _, name, .. } => name
  | .custom { face := none, .. } => StandardFont.helvetica.name

def embedded (c : Catalog) (handle : FontHandle) : Option EmbeddedFont :=
  match c.entry handle with
  | .custom { face := some _, name, program, style } => some { name, program, style }
  | _ => none

/-- Byte of a character, a question mark for one without. -/
def shownByte (ch : Char) : UInt8 := (winAnsi? ch).getD questionMark

/-- Kerning that a pair gets when kerning is on. -/
def pairKern (m : StandardMetrics) (kerning : Bool) (last : Option Char) (ch : Char) : Int :=
  match last with
  | some l => if kerning then m.kern l ch else 0
  | none => 0

section

variable {α : Type} [Scalar α]

/-- Font units to points. -/
def scaleUnits (units : Int) (perEm : Nat) (size : α) : α :=
  Scalar.ofInt units / (perEm : α) * size

/-- Bytes of a text, cut where a pair is kerned.  `pending` holds the bytes since the last
cut. -/
def encodeStandard (m : StandardMetrics) (kerning : Bool) :
    List UInt8 → Option Char → List Char → List (ShowItem α)
  | pending, _, [] => if pending.isEmpty then [] else [.bytes pending]
  | pending, last, ch :: rest =>
    let k := pairKern m kerning last ch
    if k = 0 then encodeStandard m kerning (pending ++ [shownByte ch]) (some ch) rest
    else
      .bytes pending :: .adjust (Scalar.ofInt (-k)) ::
        encodeStandard m kerning [shownByte ch] (some ch) rest

/-- Two bytes for each glyph. -/
def encodeGlyphs (face : Face) (text : List Char) : List (ShowItem α) :=
  let data := text.flatMap fun ch =>
    let glyph := (face.textGlyph? ch).getD 0
    [(glyph / 256).toUInt8, glyph.toUInt8]
  if data.isEmpty then [] else [.bytes data]

def textWidth (c : Catalog) (handle : FontHandle) (text : String) (size : α)
    (kerning : Bool) : α :=
  match c.measured handle with
  | .standard m => scaleUnits (m.units kerning text.toList) 1000 size
  | .face f => text.toList.foldl
      (fun width ch => width + scaleUnits (f.charAdvance ch) f.unitsPerEm size) 0

def ascender (c : Catalog) (handle : FontHandle) (size : α) : α :=
  match c.measured handle with
  | .standard m => scaleUnits m.ascender 1000 size
  | .face f => scaleUnits f.ascender f.unitsPerEm size

def descender (c : Catalog) (handle : FontHandle) (size : α) : α :=
  match c.measured handle with
  | .standard m => scaleUnits m.descender 1000 size
  | .face f => scaleUnits f.descender f.unitsPerEm size

def lineHeight (c : Catalog) (handle : FontHandle) (size : α) : α :=
  match c.measured handle with
  | .standard m => scaleUnits m.lineHeight 1000 size
  | .face f => scaleUnits (f.ascender - f.descender + f.lineGap) f.unitsPerEm size

end

def hasKerning (c : Catalog) (handle : FontHandle) : Bool :=
  match c.measured handle with
  | .standard m => m.hasKerning
  | .face _ => false

def canEncode (c : Catalog) (handle : FontHandle) (ch : Char) : Bool :=
  match c.measured handle with
  | .standard _ => (winAnsi? ch).isSome
  | .face f => (f.textGlyph? ch).isSome

def normalize (c : Catalog) (handle : FontHandle) (text : String) : String :=
  String.ofList (text.toList.map fun ch => if c.canEncode handle ch then ch else '?')

def encode {α : Type} [Scalar α] (c : Catalog) (handle : FontHandle) (text : String)
    (kerning : Bool) : List (EncodedChunk α) :=
  let items := match c.measured handle with
    | .standard m => encodeStandard m kerning [] none text.toList
    | .face f => encodeGlyphs f text.toList
  [{ subset := 0, items }]

def service {α : Type} [Scalar α] (c : Catalog) : FontService α :=
  { find := c.find
    baseName := c.baseName
    textWidth := c.textWidth
    ascender := c.ascender
    descender := c.descender
    lineHeight := c.lineHeight
    hasKerning := c.hasKerning
    normalize := c.normalize
    encode := c.encode
    embedded := c.embedded }

end Catalog
end Font
end Galley
