import Galley.Font.Face

/-
A reader of TrueType programs.  The tables are found once; the character map and the advances are
looked up in the program when they are asked for.  It reads files of one face, and of the character
maps those with segments and with groups.
-/

namespace Galley
namespace Font

/-- Part of a byte array.  Reading outside of it fails. -/
structure Region where
  data : ByteArray
  start : Nat
  stop : Nat

namespace Region

def ofBytes (data : ByteArray) : Region := { data, start := 0, stop := data.size }

def size (r : Region) : Nat := r.stop - r.start

def byte? (r : Region) (at_ : Nat) : Option Nat :=
  if r.start + at_ < r.stop then (r.data[r.start + at_]?).map UInt8.toNat else none

def u16? (r : Region) (at_ : Nat) : Option Nat := do
  let high ← r.byte? at_
  let low ← r.byte? (at_ + 1)
  some (256 * high + low)

def u32? (r : Region) (at_ : Nat) : Option Nat := do
  let high ← r.u16? at_
  let low ← r.u16? (at_ + 2)
  some (65536 * high + low)

/-- A number in two's complement. -/
def i16? (r : Region) (at_ : Nat) : Option Int :=
  (r.u16? at_).map fun n => if n < 0x8000 then (n : Int) else (n : Int) - 0x10000

/-- The given range, if it lies inside. -/
def sub? (r : Region) (offset length : Nat) : Option Region :=
  if offset + length ≤ r.size then
    some { r with start := r.start + offset, stop := r.start + offset + length }
  else none

/-- All from an offset on. -/
def drop? (r : Region) (offset : Nat) : Option Region :=
  if offset ≤ r.size then some { r with start := r.start + offset } else none

end Region

/-! ## Character maps -/

/-- Character maps with segments and deltas, and those with groups of consecutive glyphs. -/
inductive CharMapFormat where
  | segments (count : Nat)
  | groups (count : Nat)
  | unsupported
  deriving Repr, DecidableEq

structure CharMap where
  region : Region
  format : CharMapFormat
  /-- The map is keyed by Unicode code points. -/
  unicode : Bool

namespace CharMap

/-- Places of the arrays of a map of segments. -/
def endCodes : Nat := 14

def startCodes (count : Nat) : Nat := 16 + 2 * count

def deltas (count : Nat) : Nat := 16 + 4 * count

def rangeOffsets (count : Nat) : Nat := 16 + 6 * count

/-- The glyph of a code that segment `i` covers. -/
def segmentGlyph? (r : Region) (count i start code : Nat) : Option Nat := do
  let offset ← r.u16? (rangeOffsets count + 2 * i)
  let delta ← r.u16? (deltas count + 2 * i)
  if offset = 0 then some ((code + delta) % 65536)
  else if offset = 0xFFFF ∨ 65536 ≤ 2 * (code - start) then none
  else
    let place := (rangeOffsets count + 2 * i + 2 * (code - start) + offset) % 65536
    let value ← r.u16? place
    if value = 0 then none
    else
      let glyph := (value + delta) % 65536
      if glyph < 0x8000 then some glyph else none

/-- Halves the segments that may cover a code; the fuel is their number. -/
def searchSegments (r : Region) (count code : Nat) : Nat → Nat → Nat → Option Nat
  | 0, _, _ => none
  | fuel + 1, low, high =>
    if high ≤ low then none
    else do
      let i := (low + high) / 2
      let last ← r.u16? (endCodes + 2 * i)
      if last < code then searchSegments r count code fuel (i + 1) high
      else
        let start ← r.u16? (startCodes count + 2 * i)
        if code < start then searchSegments r count code fuel low i
        else segmentGlyph? r count i start code

/-- Place of a group. -/
def groupPlace (i : Nat) : Nat := 16 + 12 * i

/-- Halves the groups from `low` on until one is left that may cover a code; the fuel is their
number. -/
def lastGroup? (r : Region) (code : Nat) : Nat → Nat → Nat → Option Nat
  | 0, low, _ => some low
  | fuel + 1, low, count =>
    if count ≤ 1 then some low
    else do
      let middle := low + count / 2
      let start ← r.u32? (groupPlace middle)
      lastGroup? r code fuel (if code < start then low else middle) (count - count / 2)

/-- The glyph of a code that a group covers. -/
def groupGlyph? (r : Region) (count code : Nat) : Option Nat := do
  if count = 0 then none
  let i ← lastGroup? r code count 0 count
  let start ← r.u32? (groupPlace i)
  let last ← r.u32? (groupPlace i + 4)
  let glyph ← r.u32? (groupPlace i + 8)
  if code < start ∨ last < code ∨ UInt32.size ≤ glyph + code then none
  else if glyph + code - start < 65536 then some (glyph + code - start)
  else none

def glyph? (m : CharMap) (c : Char) : Option Nat :=
  match m.format with
  | .segments count =>
    if c.toNat < 65536 then searchSegments m.region count c.toNat (count + 1) 0 count else none
  | .groups count => groupGlyph? m.region count c.toNat
  | .unsupported => none

def ofRecord? (table : Region) (platform encoding offset : Nat) : Option CharMap := do
  let region ← table.drop? offset
  let format ← match ← region.u16? 0 with
    | 4 => do
      let doubled ← region.u16? 6
      if doubled < 2 ∨ region.size < rangeOffsets (doubled / 2) + 2 * (doubled / 2) then none
      else some (.segments (doubled / 2))
    | 12 => do
      let count ← region.u32? 12
      if region.size < 16 + 12 * count then none else some (.groups count)
    | n => if n ∈ [0, 2, 6, 8, 10, 13, 14] then some .unsupported else none
  let unicode := platform = 0 || (platform = 3 && encoding = 1) ||
    (platform = 3 && encoding = 10 && match format with
      | .groups _ => true
      | _ => false)
  some { region, format, unicode }

/-- Maps in the order of the file, up to the first that cannot be read. -/
def readMaps (table : Region) : Nat → Nat → List CharMap
  | 0, _ => []
  | left + 1, place =>
    let map? := do
      let platform ← table.u16? place
      let encoding ← table.u16? (place + 2)
      let offset ← table.u32? (place + 4)
      if platform ≤ 4 then ofRecord? table platform encoding offset else none
    match map? with
    | some m => m :: readMaps table left (place + 8)
    | none => []

def ofTable (table : Region) : List CharMap :=
  match table.u16? 2 with
  | some count => if table.size < 4 + 8 * count then [] else readMaps table count 4
  | none => []

end CharMap

/-! ## Tables -/

/-- What is kept of the tables of a program. -/
structure TrueType where
  unitsPerEm : Nat
  glyphCount : Nat
  /-- Advances of the first glyphs; the last of them holds for all that follow. -/
  advances : Option (Region × Nat)
  charMaps : List CharMap
  ascender : Int
  descender : Int
  lineGap : Int
  capitalHeight : Option Int
  box : Int × Int × Int × Int

namespace TrueType

/-- Vertical extent as one table gives it. -/
structure Extent where
  ascender : Int
  descender : Int
  lineGap : Int

/-- Extents that a face may give besides the one of its horizontal header. -/
structure ExtraExtents where
  typographic : Extent
  windowsAscender : Int
  windowsDescender : Int
  /-- The face asks for its typographic extent. -/
  preferTypographic : Bool
  capitalHeight : Option Int

def ExtraExtents.ofTable? (t : Region) : Option ExtraExtents := do
  let version ← t.u16? 0
  let needed ← match version with
    | 0 => some 78
    | 1 => some 86
    | 2 | 3 | 4 => some 96
    | 5 => some 100
    | _ => none
  if t.size < needed then none
  let selection ← t.u16? 62
  let down ← t.i16? 76
  some {
    typographic := ⟨← t.i16? 68, ← t.i16? 70, ← t.i16? 72⟩
    windowsAscender := ← t.i16? 74
    windowsDescender := if down = -0x8000 then down else -down
    preferTypographic := 4 ≤ version && selection / 128 % 2 = 1
    capitalHeight := if 2 ≤ version then t.i16? 88 else none }

/-- The first value that is not zero. -/
def firstNonzero (a b c : Int) : Int := if a ≠ 0 then a else if b ≠ 0 then b else c

/-- The extent of the header counts where it is not zero, unless the face asks otherwise. -/
def chooseExtent (header : Extent) : Option ExtraExtents → Extent
  | none => header
  | some extra =>
    let typo := extra.typographic
    if extra.preferTypographic then typo
    else {
      ascender := firstNonzero header.ascender typo.ascender extra.windowsAscender
      descender := firstNonzero header.descender typo.descender extra.windowsDescender
      lineGap :=
        if header.ascender ≠ 0 ∧ header.descender ≠ 0 then header.lineGap
        else if typo.ascender ≠ 0 ∨ typo.descender ≠ 0 then typo.lineGap
        else 0 }

/-- Offset and length of the last table that has a name. -/
def findRecord? (file : Region) (name : String) : Nat → Nat → Option (Nat × Nat)
  | 0, _ => none
  | left + 1, place =>
    match findRecord? file name left (place + 16) with
    | some later => some later
    | none =>
      let tag := (List.range 4).mapM fun i => (file.byte? (place + i)).map Char.ofNat
      if tag = some name.toList then do
        some (← file.u32? (place + 8), ← file.u32? (place + 12))
      else none

/-- The table of a name.  One that is not wholly inside the file is absent. -/
def findTable? (file : Region) (name : String) (count : Nat) : Option Region :=
  (findRecord? file name count 12).bind fun (offset, length) => file.sub? offset length

/-- Words that a font file may start with. -/
def signatures : List Nat := [0x00010000, 0x74727565, 0x4F54544F]

def ofBytes? (program : ByteArray) : Option TrueType := do
  let file := Region.ofBytes program
  let signature ← file.u32? 0
  if signature ∉ signatures then none
  let tableCount ← file.u16? 4
  if file.size < 12 + 16 * tableCount then none
  let table? (name : String) : Option Region := findTable? file name tableCount
  let head ← table? "head"
  if head.size < 54 then none
  let unitsPerEm ← head.u16? 18
  let locationFormat ← head.u16? 50
  if unitsPerEm < 16 ∨ 16384 < unitsPerEm ∨ 1 < locationFormat then none
  let hhea ← table? "hhea"
  if hhea.size < 36 then none
  let metricCount ← hhea.u16? 34
  let maxp ← table? "maxp"
  let version ← maxp.u32? 0
  if version ≠ 0x00005000 ∧ version ≠ 0x00010000 then none
  let glyphCount ← maxp.u16? 4
  if glyphCount = 0 then none
  let advances := (table? "hmtx").bind fun t =>
    if metricCount = 0 ∨ t.size < 4 * metricCount then none else some (t, metricCount)
  let extra := (table? "OS/2").bind ExtraExtents.ofTable?
  let extent := chooseExtent ⟨← hhea.i16? 4, ← hhea.i16? 6, ← hhea.i16? 8⟩ extra
  some {
    unitsPerEm
    glyphCount
    advances
    charMaps := ((table? "cmap").map CharMap.ofTable).getD []
    ascender := extent.ascender
    descender := extent.descender
    lineGap := extent.lineGap
    capitalHeight := extra.bind ExtraExtents.capitalHeight
    box := (← head.i16? 36, ← head.i16? 38, ← head.i16? 40, ← head.i16? 42) }

/-- The glyph of a character in the first Unicode map that has one. -/
def glyph? (t : TrueType) (c : Char) : Option Nat :=
  t.charMaps.findSome? fun m => if m.unicode then m.glyph? c else none

def advance? (t : TrueType) (glyph : Nat) : Option Nat :=
  match t.advances with
  | some (r, count) =>
    if max count t.glyphCount ≤ glyph then none
    else r.u16? (4 * min glyph (count - 1))
  | none => none

def face (t : TrueType) : Face :=
  { unitsPerEm := t.unitsPerEm
    glyph? := fun c => (t.glyph? c).map Nat.toUInt16
    advance? := t.advance?
    ascender := t.ascender
    descender := t.descender
    lineGap := t.lineGap
    capitalHeight := t.capitalHeight
    box := t.box }

instance : FaceReader where
  face? program := (ofBytes? program).map face

end TrueType
end Font
end Galley
