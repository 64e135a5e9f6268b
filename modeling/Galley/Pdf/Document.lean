import Galley.Pdf.Value

/-
A document as a file: numbered objects, a table of their offsets, and a trailer that points to
the first of them.
-/

namespace Galley
namespace Pdf

/-- Packs the data of streams. -/
class Packer where
  pack : List UInt8 → List UInt8

namespace Object

/-- The body as it stands between the object's number and its end. -/
def body [Packer] : Object → List UInt8
  | value v => utf8 v.write
  | stream extra data =>
    let packed := Packer.pack data
    utf8 (streamDict extra (.integer packed.length)).write ++ utf8 "\nstream\n" ++ packed ++
      utf8 "\nendstream"

end Object

/-- Objects from number 1 on. -/
structure Document where
  objects : List Object
  deriving Inhabited

namespace Document

/-- The version, and a comment whose bytes mark the file as binary. -/
def header : List UInt8 := utf8 "%PDF-1.7\n%" ++ [0xe2, 0xe3, 0xcf, 0xd3, 0x0a]

/-- An object with its number. -/
def writeObject (id : Nat) (body : List UInt8) : List UInt8 :=
  utf8 (toString id ++ " 0 obj\n") ++ body ++ utf8 "\nendobj\n\n"

/-- Objects from a number on. -/
def writeObjects : Nat → List (List UInt8) → List UInt8
  | _, [] => []
  | id, body :: bodies => writeObject id body ++ writeObjects (id + 1) bodies

/-- Offsets at which the objects start, the first at `offset`. -/
def offsets : Nat → Nat → List (List UInt8) → List Nat
  | _, _, [] => []
  | id, offset, body :: bodies =>
    offset :: offsets (id + 1) (offset + (writeObject id body).length) bodies

/-- Decimal digits filled up with zeros to at least `width`. -/
def zeroPadded (width n : Nat) : String :=
  let ds := Nat.toDigits 10 n
  String.ofList (List.replicate (width - ds.length) '0' ++ ds)

/-- First entry of the table, the head of the list of free objects. -/
def freeEntry : String := "0000000000 65535 f "

def usedEntry (offset : Nat) : String := zeroPadded 10 offset ++ " 00000 n "

/-- The table of offsets. -/
def table (offsets : List Nat) : String :=
  "xref\n0 " ++ toString (offsets.length + 1) ++ "\n" ++ freeEntry ++ "\n" ++
    String.join (offsets.map fun offset => usedEntry offset ++ "\n")

/-- The dictionary of the trailer, for a table with `count` entries. -/
def trailerDict (count : Nat) : Value :=
  .dict [("Size", .integer count), ("Root", .ref 1)]

def endMark : String := "%%EOF\n"

def trailer (count tableOffset : Nat) : String :=
  "trailer\n" ++ (trailerDict count).write ++ "\nstartxref\n" ++ toString tableOffset ++ "\n" ++
    endMark

/-- A file with the given bodies of objects, from number 1 on. -/
def serialize (bodies : List (List UInt8)) : List UInt8 :=
  let written := header ++ writeObjects 1 bodies
  written ++ utf8 (table (offsets 1 header.length bodies)) ++
    utf8 (trailer (bodies.length + 1) written.length)

def toBytes [Packer] (d : Document) : List UInt8 := serialize (d.objects.map Object.body)

end Document
end Pdf
end Galley
