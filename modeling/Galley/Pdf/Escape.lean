import Galley.Text.Hex

/-
Strings and names of a document.  Both are written in printable ASCII.
-/

namespace Galley
namespace Pdf

def asciiChar (b : UInt8) : Char := Char.ofNat b.toNat

/-- A byte of a literal string.  Delimiters get a backslash, and what is not printable is
written as three octal digits. -/
def escapeByte (b : UInt8) : List Char :=
  if b = 0x5c ∨ b = 0x28 ∨ b = 0x29 then ['\\', asciiChar b]
  else if 0x20 ≤ b ∧ b ≤ 0x7e then [asciiChar b]
  else '\\' :: Text.octal b.toNat

/-- The inside of a literal string. -/
def escapeBytes (data : List UInt8) : String := String.ofList (data.flatMap escapeByte)

/-- Bytes that end a name or start an escape in it. -/
def nameDelimiters : List UInt8 :=
  [0x28, 0x29, 0x3c, 0x3e, 0x5b, 0x5d, 0x7b, 0x7d, 0x2f, 0x25, 0x23]

/-- A byte of a name: itself if it is printable and no delimiter, else two hexadecimal digits
after a number sign. -/
def nameByte (b : UInt8) : List Char :=
  if 0x21 ≤ b ∧ b ≤ 0x7e ∧ b ∉ nameDelimiters then [asciiChar b]
  else '#' :: Text.upperHex 2 b.toNat

def utf8 (s : String) : List UInt8 := s.toUTF8.toList

/-- A name without its slash. -/
def nameText (s : String) : String := String.ofList ((utf8 s).flatMap nameByte)

end Pdf
end Galley
