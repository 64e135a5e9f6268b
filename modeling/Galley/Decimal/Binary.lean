/-
The exact value of a double.  Every decimal text in this library is chosen from these
integers, so that no digit depends on floating-point arithmetic.
-/

namespace Galley
namespace Decimal

/-- A double taken apart: a finite one is `± significand · 2 ^ exponent`. -/
inductive Binary where
  | finite (negative : Bool) (significand : Nat) (exponent : Int)
  | infinite (negative : Bool)
  | nan
  deriving Repr, DecidableEq, Inhabited

namespace Binary

/-- Exponent of the smallest positive double. -/
def leastExponent : Int := -1074

/-- The implicit leading bit of a normal double. -/
def hiddenBit : Nat := 0x10000000000000

/-- Values that the exponent bits can have. -/
def exponents : Nat := 2048

def ofBits (bits : UInt64) : Binary :=
  let n := bits.toNat
  let negative := n / (hiddenBit * exponents) = 1
  let exponent := n / hiddenBit % exponents
  let fraction := n % hiddenBit
  if exponent = exponents - 1 then
    if fraction = 0 then .infinite negative else .nan
  else if exponent = 0 then
    .finite negative fraction leastExponent
  else
    .finite negative (hiddenBit + fraction) (Int.ofNat exponent - 1 + leastExponent)

def ofFloat (x : Float) : Binary := ofBits x.toBits

end Binary

/-- Numerator of `2 ^ e` in lowest terms. -/
def twoNum (e : Int) : Nat := Nat.pow 2 e.toNat

/-- Denominator of `2 ^ e` in lowest terms. -/
def twoDen (e : Int) : Nat := Nat.pow 2 (-e).toNat

end Decimal
end Galley
