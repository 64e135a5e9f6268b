import Galley.Decimal.Fixed
import Galley.Decimal.Shortest

/-
The numbers that layout computes with.  Measuring, breaking and drawing use nothing but these
operations, so one set of definitions runs on doubles and is reasoned about on rationals.
-/

namespace Galley

class Scalar (α : Type) extends
    Zero α, NatCast α, Add α, Sub α, Mul α, Div α, Neg α, LT α, LE α, BEq α where
  decLt : ∀ a b : α, Decidable (a < b)
  decLe : ∀ a b : α, Decidable (a ≤ b)
  /-- `decimal n places` is `n / 10 ^ places`. -/
  decimal : Nat → Nat → α
  /-- Above all other numbers; where there is no such number, any number. -/
  unbounded : α
  /-- Text with a set number of decimals. -/
  fixed : Nat → α → String
  /-- Text with as few digits as identify the number. -/
  shortest : α → String

namespace Scalar

variable {α : Type} [Scalar α]

instance (a b : α) : Decidable (a < b) := decLt a b

instance (a b : α) : Decidable (a ≤ b) := decLe a b

/-- An undefined result differs from itself. -/
def isUndefined (x : α) : Bool := x != x

/-- The larger of two numbers, or the defined one of them. -/
def larger (a b : α) : α :=
  if isUndefined a then b else if isUndefined b then a else if a < b then b else a

/-- The smaller of two numbers, or the defined one of them. -/
def smaller (a b : α) : α :=
  if isUndefined a then b else if isUndefined b then a else if b < a then b else a

/-- The smallest of the defined numbers of a list. -/
def least (xs : List α) : α :=
  match xs.filter fun x => !isUndefined x with
  | [] => unbounded
  | x :: rest => rest.foldl smaller x

/-- The largest of the defined numbers of a list. -/
def greatest (xs : List α) : α :=
  match xs.filter fun x => !isUndefined x with
  | [] => -unbounded
  | x :: rest => rest.foldl larger x

def magnitude (x : α) : α := if x < 0 then -x else x

def ofInt : Int → α
  | .ofNat n => (n : α)
  | .negSucc n => -((n + 1 : Nat) : α)

/-- Slack allowed when widths and positions are compared. -/
def epsilon : α := decimal 1 6

/-- `x ^ n` by repeated squaring, lowest bit of `n` first. -/
def power (x : α) (n : Nat) : α := go ((1 : Nat) : α) x n
where
  go (product x : α) (n : Nat) : α :=
    let product := if n % 2 = 1 then product * x else product
    if n / 2 = 0 then product else go product (x * x) (n / 2)
  termination_by n
  decreasing_by omega

end Scalar

instance : Scalar Float where
  zero := 0
  natCast := Float.ofNat
  decLt := fun a b => inferInstanceAs (Decidable (a < b))
  decLe := fun a b => inferInstanceAs (Decidable (a ≤ b))
  decimal := fun n places => Float.ofScientific n true places
  unbounded := 1 / 0
  fixed := Decimal.fixedFloat
  shortest := Decimal.shortestFloat

instance : Scalar Rat where
  zero := 0
  decLt := fun a b => inferInstanceAs (Decidable (a < b))
  decLe := fun a b => inferInstanceAs (Decidable (a ≤ b))
  decimal := fun n places => mkRat (Int.ofNat n) (Nat.pow 10 places)
  unbounded := 0
  fixed := fun places x => Decimal.fixedQuotient places (x < 0) x.num.natAbs x.den
  shortest := fun x => s!"{x.num}/{x.den}"

end Galley
