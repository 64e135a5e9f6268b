/-
Hexadecimal and octal digits.
-/

namespace Galley
namespace Text

/-- The value of a hexadecimal digit in either case. -/
def hexValue? (c : Char) : Option Nat :=
  if '0' ≤ c ∧ c ≤ '9' then some (c.toNat - '0'.toNat)
  else if 'a' ≤ c ∧ c ≤ 'f' then some (c.toNat - 'a'.toNat + 10)
  else if 'A' ≤ c ∧ c ≤ 'F' then some (c.toNat - 'A'.toNat + 10)
  else none

/-- Digit of a value below sixteen, in upper case. -/
def upperHexDigit (n : Nat) : Char :=
  if n < 10 then Char.ofNat ('0'.toNat + n) else Char.ofNat ('A'.toNat + (n - 10))

/-- The last `width` hexadecimal digits of a number, in upper case. -/
def upperHex : Nat → Nat → List Char
  | 0, _ => []
  | width + 1, n => upperHex width (n / 16) ++ [upperHexDigit (n % 16)]

def octalDigit (n : Nat) : Char := Char.ofNat ('0'.toNat + n)

/-- Three octal digits. -/
def octal (n : Nat) : List Char :=
  [octalDigit (n / 64 % 8), octalDigit (n / 8 % 8), octalDigit (n % 8)]

end Text
end Galley
