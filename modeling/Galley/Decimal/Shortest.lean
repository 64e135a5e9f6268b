import Galley.Decimal.Binary

/-
The shortest decimal that reads back to a given double, written positionally: never with an
exponent, and without a point when the value is whole.

The doubles near `m · 2 ^ q` leave it an interval of reals that round to it.  For each number of
digits in turn the two neighbours of the value on that decimal grid are tested against the
interval in exact integers; the first grid with a hit gives the digits.
-/

namespace Galley
namespace Decimal

/-- A positive value and the interval of reals that round to it, over one denominator. -/
structure Rounding where
  value : Nat
  low : Nat
  high : Nat
  den : Nat
  /-- The ends belong to the interval: a tie is rounded to the even significand. -/
  closed : Bool

namespace Rounding

/-- The gap below a power of two is half the gap above it, except at the least exponent. -/
def ofBinary (m : Nat) (e : Int) : Rounding :=
  let unit := twoNum e
  let below := if m = Binary.hiddenBit ∧ e ≠ Binary.leastExponent then 1 else 2
  { value := 4 * m * unit
    low := 4 * m * unit - below * unit
    high := 4 * m * unit + 2 * unit
    den := 4 * twoDen e
    closed := m % 2 = 0 }

/-- `d · 10 ^ g` lies in the interval. -/
def admits (r : Rounding) (d : Nat) (g : Int) : Bool :=
  let n := d * Nat.pow 10 g.toNat * r.den
  let s := Nat.pow 10 (-g).toNat
  if r.closed then r.low * s ≤ n && n ≤ r.high * s else r.low * s < n && n < r.high * s

/-- Distance of `d · 10 ^ g` from the value, in units that depend on `g` alone. -/
def distance (r : Rounding) (d : Nat) (g : Int) : Nat :=
  let n := d * Nat.pow 10 g.toNat * r.den
  let v := r.value * Nat.pow 10 (-g).toNat
  if n ≤ v then v - n else n - v

/-- The better of the value's two neighbours on the grid `10 ^ g`, when one is admitted.  An
exact tie goes up. -/
def onGrid (r : Rounding) (g : Int) : Option Nat :=
  let d := r.value * Nat.pow 10 (-g).toNat / (r.den * Nat.pow 10 g.toNat)
  match r.admits d g, r.admits (d + 1) g with
  | true, true => some (if r.distance d g < r.distance (d + 1) g then d else d + 1)
  | true, false => some d
  | false, true => some (d + 1)
  | false, false => none

/-- The least `k ≤ top` such that the value is below `10 ^ k`, searched downwards. -/
def magnitude (r : Rounding) : Nat → Int → Int
  | 0, top => top
  | fuel + 1, top =>
    let k := top - 1
    if r.value * Nat.pow 10 (-k).toNat < r.den * Nat.pow 10 k.toNat then r.magnitude fuel k else top

/-- Digits and exponent of the first grid with a hit.  Seventeen digits always suffice. -/
def shortest (r : Rounding) : Nat × Int :=
  let k := r.magnitude 640 310
  let grids := (List.range 17).map fun n => k - Int.ofNat (n + 1)
  match grids.findSome? fun g => (r.onGrid g).map fun d => (d, g) with
  | some found => found
  | none => (r.value / r.den, 0)

end Rounding

/-- Moves the point left past trailing zeros. -/
def dropZeros : Nat → Nat → Nat × Nat
  | d, 0 => (d, 0)
  | d, places + 1 => if d % 10 = 0 then dropZeros (d / 10) places else (d, places + 1)

/-- `d · 10 ^ g` without an exponent. -/
def positional (d : Nat) (g : Int) : List Char :=
  let (d, places) := dropZeros (d * Nat.pow 10 g.toNat) (-g).toNat
  let whole := Nat.toDigits 10 (d / Nat.pow 10 places)
  if places = 0 then whole
  else
    let ds := Nat.toDigits 10 (d % Nat.pow 10 places)
    whole ++ '.' :: (List.replicate (places - ds.length) '0' ++ ds)

def shortestFloat (x : Float) : String :=
  match Binary.ofFloat x with
  | .finite negative m e =>
    let text := if m = 0 then ['0'] else
      let (d, g) := (Rounding.ofBinary m e).shortest
      positional d g
    String.ofList (if negative then '-' :: text else text)
  | .infinite negative => if negative then "-inf" else "inf"
  | .nan => "NaN"

end Decimal
end Galley
