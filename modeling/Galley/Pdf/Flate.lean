import Galley.Pdf.Document

/-
Packs data in blocks that are stored as they are.  Any reader of the format takes them.
-/

namespace Galley
namespace Pdf
namespace Flate

/-- Largest prime below 2 ^ 16. -/
def modulus : Nat := 65521

/-- Two running sums over the data. -/
def checksum (data : List UInt8) : Nat :=
  let (a, b) := data.foldl (fun (a, b) x =>
    let a := (a + x.toNat) % modulus
    (a, (b + a) % modulus)) (1, 0)
  b * 65536 + a

def lowHigh (n : Nat) : List UInt8 := [n.toUInt8, (n / 256).toUInt8]

/-- Most bytes that one block can hold. -/
def blockSize : Nat := 65535

/-- A block: whether it is the last one, its length and the complement of that, its bytes. -/
def storedBlock (last : Bool) (data : List UInt8) : List UInt8 :=
  (if last then 1 else 0) :: lowHigh data.length ++ lowHigh (blockSize - data.length) ++ data

/-- Blocks of the data; the fuel bounds their number. -/
def storedBlocks : Nat → List UInt8 → List UInt8
  | 0, data => storedBlock true data
  | fuel + 1, data =>
    if data.length ≤ blockSize then storedBlock true data
    else storedBlock false (data.take blockSize) ++ storedBlocks fuel (data.drop blockSize)

def compress (data : List UInt8) : List UInt8 :=
  let sum := checksum data
  [0x78, 0x01] ++ storedBlocks (data.length / blockSize) data ++
    [(sum / 16777216).toUInt8, (sum / 65536).toUInt8, (sum / 256).toUInt8, sum.toUInt8]

instance : Packer where
  pack := compress

end Flate
end Pdf
end Galley
