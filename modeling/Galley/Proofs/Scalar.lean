import Mathlib
import Galley.Scalar

/-
What theorems about layout ask of its numbers.

Results that depend on signs alone hold for every number type with `KeepsSign`.  Results in exact
arithmetic are stated for `Rat`, whose operations are those of the field of rational numbers.

Modules of proofs import this one before those of the program, so that all of them find the same
instances for `Rat`.
-/

namespace Galley
namespace Scalar

/-- Sums keep the sign of their parts.  Exact numbers do, and so do doubles: the rounded sum of
two numbers that are not negative is not below either of them. -/
class KeepsSign (α : Type) [Scalar α] : Prop where
  zero_le_zero : (0 : α) ≤ 0
  not_zero_lt_zero : ¬ (0 : α) < 0
  add_nonneg : ∀ {a b : α}, 0 ≤ a → 0 ≤ b → 0 ≤ a + b
  add_pos_left : ∀ {a b : α}, 0 < a → 0 ≤ b → 0 < a + b
  add_pos_right : ∀ {a b : α}, 0 ≤ a → 0 < b → 0 < a + b
  not_pos_of_beq_zero : ∀ {a : α}, (a == 0) = true → ¬ 0 < a

instance : KeepsSign Rat where
  zero_le_zero := le_refl _
  not_zero_lt_zero := lt_irrefl _
  add_nonneg := fun ha hb => Left.add_nonneg ha hb
  add_pos_left := fun ha hb => add_pos_of_pos_of_nonneg ha hb
  add_pos_right := fun ha hb => add_pos_of_nonneg_of_pos ha hb
  not_pos_of_beq_zero := by
    intro a ha hpos
    rw [beq_iff_eq] at ha
    exact absurd ha (ne_of_gt hpos)

/-- The room of a line is exact: a line that it is added to has none left.  Doubles round it. -/
class ExactRoom (α : Type) [Scalar α] : Prop where
  sub_add_sub : ∀ a b : α, b - (a + (b - a)) = 0
  zero_half : (0 : α) / ((2 : Nat) : α) = 0
  half_pos : ∀ {a : α}, 0 < a → 0 < a / ((2 : Nat) : α)
  larger_zero : larger (0 : α) 0 = 0
  larger_pos : ∀ {a : α}, 0 < a → larger a 0 = a
  ne_zero : ∀ {a : α}, 0 < a → a ≠ 0

theorem isUndefined_rat (x : Rat) : isUndefined x = false := by simp [isUndefined]

theorem larger_eq_max (a b : Rat) : larger a b = max a b := by
  unfold larger
  rw [isUndefined_rat, isUndefined_rat, if_neg (by decide), if_neg (by decide), max_def]
  by_cases h : a < b
  · rw [if_pos h, if_pos (le_of_lt h)]
  · rw [if_neg h]
    by_cases hab : a ≤ b
    · rw [if_pos hab]
      exact le_antisymm hab (not_lt.1 h)
    · rw [if_neg hab]

theorem smaller_eq_min (a b : Rat) : smaller a b = min a b := by
  unfold smaller
  rw [isUndefined_rat, isUndefined_rat, if_neg (by decide), if_neg (by decide), min_def]
  by_cases h : b < a
  · rw [if_pos h, if_neg (not_le.2 h)]
  · rw [if_neg h, if_pos (not_lt.1 h)]

instance : ExactRoom Rat where
  sub_add_sub a b := by ring
  zero_half := zero_div _
  half_pos h := div_pos h (by norm_num)
  larger_zero := by rw [larger_eq_max, max_self]
  larger_pos h := by rw [larger_eq_max, max_eq_left (le_of_lt h)]
  ne_zero h := ne_of_gt h

theorem epsilon_pos : 0 < (epsilon : Rat) := by
  show (0 : Rat) < mkRat 1 (10 ^ 6)
  norm_num

theorem power_go (product x : Rat) (n : Nat) : power.go product x n = product * x ^ n := by
  fun_induction power.go product x n with
  | case1 product x n next hhalf =>
    -- the last bit is the whole number
    have hnext : next = if n % 2 = 1 then product * x else product := rfl
    rcases (show n = 0 ∨ n = 1 by omega) with rfl | rfl
    · rw [hnext, if_neg (by decide), pow_zero, mul_one]
    · rw [hnext, if_pos rfl, pow_one]
  | case2 product x n next hhalf ih =>
    have hnext : next = product * x ^ (n % 2) := by
      rcases Nat.mod_two_eq_zero_or_one n with hbit | hbit
      · rw [hbit, pow_zero, mul_one]
        exact if_neg (by omega)
      · rw [hbit, pow_one]
        exact if_pos hbit
    have hsplit : n % 2 + 2 * (n / 2) = n := Nat.mod_add_div n 2
    rw [ih, hnext, ← sq, ← pow_mul, mul_assoc, ← pow_add, hsplit]

theorem power_eq_pow (x : Rat) (n : Nat) : power x n = x ^ n := by
  show power.go 1 x n = x ^ n
  rw [power_go, one_mul]

theorem power_two (x : Rat) : power x 2 = x ^ 2 := power_eq_pow x 2

end Scalar
end Galley
