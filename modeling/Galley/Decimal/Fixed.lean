import Galley.Decimal.Binary

/-
Decimals with a set number of places.  The exact value is rounded once, a half going to the
even neighbour, and a negative value keeps its sign when it rounds to zero.
-/

namespace Galley
namespace Decimal

/-- The integer nearest to `num / den`, a half going to the even neighbour. -/
def roundDiv (num den : Nat) : Nat :=
  let q := num / den
  let r := num % den
  if 2 * r < den then q
  else if den < 2 * r then q + 1
  else if q % 2 = 0 then q
  else q + 1

/-- Decimal digits of `n`, filled up with zeros on the left to at least `width`. -/
def paddedDigits (width n : Nat) : List Char :=
  let ds := Nat.toDigits 10 n
  List.replicate (width - ds.length) '0' ++ ds

/-- `n` units of `10 ^ -places`, written with exactly `places` decimals. -/
def placed (places n : Nat) : List Char :=
  let whole := Nat.toDigits 10 (n / Nat.pow 10 places)
  if places = 0 then whole
  else whole ++ '.' :: paddedDigits places (n % Nat.pow 10 places)

/-- `± num / den` with `places` decimals. -/
def fixedQuotient (places : Nat) (negative : Bool) (num den : Nat) : String :=
  let text := placed places (roundDiv (num * Nat.pow 10 places) den)
  String.ofList (if negative then '-' :: text else text)

/-- A double with `places` decimals.  What is not finite is written as a word. -/
def fixedFloat (places : Nat) (x : Float) : String :=
  match Binary.ofFloat x with
  | .finite negative m e => fixedQuotient places negative (m * twoNum e) (twoDen e)
  | .infinite negative => if negative then "-inf" else "inf"
  | .nan => "NaN"

end Decimal
end Galley
