import Galley.Proofs.Scalar
import Galley.Proofs.Pdf.FileReading
import Galley.Decimal.Reading

/-
What decimals with a set number of places say.

A number is written as the decimal next to it, and the text is that decimal (`valueOf_fixed`, and
`valueOf_fixedFloat` for a double that is finite).  So it is off by half a unit of its last place at
most (`abs_roundingError_le`), and by nothing at all where the number is zero.
-/

namespace Galley
namespace Decimal

/-! ## Decimals read -/

/-- The number that digits stand for, with or without a point among them. -/
def magnitudeOf (cs : List Char) : Rat :=
  (ofDigits (cs.filter Char.isDigit) : Rat) / 10 ^ ((cs.dropWhile (· ≠ '.')).drop 1).length

/-- The number that a decimal stands for. -/
def valueOf : List Char → Rat
  | '-' :: cs => -magnitudeOf cs
  | cs => magnitudeOf cs

theorem ofDigits_append (cs ds : List Char) :
    ofDigits (cs ++ ds) = 10 ^ ds.length * ofDigits cs + ofDigits ds := by
  show Nat.ofDigitChars 10 (cs ++ ds) 0 = _
  rw [Nat.ofDigitChars_append, Nat.ofDigitChars_eq_ofDigitChars_zero]
  rfl

theorem length_paddedDigits {places n : Nat} (hplaces : 0 < places) (h : n < 10 ^ places) :
    (paddedDigits places n).length = places := by
  have hle : (Nat.toDigits 10 n).length ≤ places :=
    (Nat.length_toDigits_le_iff (by decide) hplaces).2 h
  unfold paddedDigits
  dsimp only
  rw [List.length_append, List.length_replicate]
  omega

theorem filter_digits {cs : List Char} (h : ∀ c ∈ cs, c.isDigit = true) :
    cs.filter Char.isDigit = cs := List.filter_eq_self.2 h

theorem dropWhile_digits {cs : List Char} (h : ∀ c ∈ cs, c.isDigit = true) (rest : List Char) :
    (cs ++ rest).dropWhile (· ≠ '.') = rest.dropWhile (· ≠ '.') := by
  refine List.dropWhile_append_of_pos fun c hc => ?_
  rw [decide_eq_true_eq]
  rintro rfl
  exact absurd (h _ hc) (by decide)

theorem magnitudeOf_placed (places n : Nat) :
    magnitudeOf (placed places n) = (n : Rat) / 10 ^ places := by
  have hwhole (k : Nat) : ∀ c ∈ Nat.toDigits 10 k, c.isDigit = true := Pdf.isDigit_toDigits
  have hvalue (k : Nat) : ofDigits (Nat.toDigits 10 k) = k := Nat.ofDigitChars_ten_toDigits
  unfold magnitudeOf placed
  dsimp only
  by_cases hplaces : places = 0
  · subst hplaces
    have hnone := dropWhile_digits (hwhole (n / Nat.pow 10 0)) []
    rw [List.append_nil] at hnone
    rw [if_pos rfl, filter_digits (hwhole _), hnone, hvalue]
    simp
  · have hpadded : ∀ c ∈ paddedDigits places (n % Nat.pow 10 places), c.isDigit = true :=
      Pdf.Document.isDigit_zeroPadded
    have hlength : (paddedDigits places (n % Nat.pow 10 places)).length = places :=
      length_paddedDigits (Nat.pos_of_ne_zero hplaces)
        (Nat.mod_lt n (Nat.pow_pos (by decide : 0 < 10)))
    have hzeros : ofDigits (paddedDigits places (n % Nat.pow 10 places)) =
        n % Nat.pow 10 places := Pdf.Document.ofDigitChars_zeros _ _
    have hnumber : 10 ^ places * (n / Nat.pow 10 places) + n % Nat.pow 10 places = n :=
      Nat.div_add_mod n _
    rw [if_neg hplaces, dropWhile_digits (hwhole _), List.filter_append,
      filter_digits (hwhole _), List.filter_cons_of_neg (by decide), filter_digits hpadded,
      ofDigits_append, hvalue, hzeros, hlength, hnumber, List.dropWhile_cons_of_neg (by simp),
      List.drop_one, List.tail_cons, hlength]

theorem valueOf_negative (cs : List Char) : valueOf ('-' :: cs) = -magnitudeOf cs := rfl

/-- A number without a sign begins with a digit. -/
theorem exists_digit_placed (places n : Nat) :
    ∃ c cs, placed places n = c :: cs ∧ c.isDigit = true := by
  obtain ⟨c, ds, hds⟩ := List.exists_cons_of_ne_nil
    (show Nat.toDigits 10 (n / Nat.pow 10 places) ≠ [] from Nat.toDigits_ne_nil)
  have hc : c.isDigit = true := Pdf.isDigit_toDigits c (by rw [hds]; exact List.mem_cons_self)
  unfold placed
  rw [hds]
  dsimp only
  split
  · exact ⟨c, ds, rfl, hc⟩
  · exact ⟨c, _, rfl, hc⟩

theorem valueOf_placed (places n : Nat) :
    valueOf (placed places n) = magnitudeOf (placed places n) := by
  obtain ⟨c, cs, hplaced, hc⟩ := exists_digit_placed places n
  unfold valueOf
  split
  · next ds hds =>
    obtain ⟨rfl, -⟩ := List.cons.inj (hplaced.symm.trans hds)
    exact absurd hc (by decide)
  · rfl

/-! ## Rounding -/

/-- The nearest integer is half a unit away at most. -/
theorem roundDiv_near (num : Nat) {den : Nat} (hden : 0 < den) :
    2 * (roundDiv num den * den) ≤ 2 * num + den ∧
      2 * num ≤ 2 * (roundDiv num den * den) + den := by
  have hdiv : den * (num / den) + num % den = num := Nat.div_add_mod num den
  have hmod : num % den < den := Nat.mod_lt num hden
  have hdown : num / den * den = den * (num / den) := Nat.mul_comm _ _
  have hup : (num / den + 1) * den = den * (num / den) + den := by ring
  unfold roundDiv
  dsimp only
  split
  · rw [hdown]
    omega
  · split
    · rw [hup]
      omega
    · split
      · rw [hdown]
        omega
      · rw [hup]
        omega

/-- The decimal that a number is written as. -/
def rounded (places : Nat) (x : Rat) : Rat :=
  let units : Rat := roundDiv (x.num.natAbs * 10 ^ places) x.den
  (if x < 0 then -units else units) / 10 ^ places

theorem rounded_zero (places : Nat) : rounded places 0 = 0 := by
  have hunits : roundDiv ((0 : Rat).num.natAbs * 10 ^ places) (0 : Rat).den = 0 := by
    simp [roundDiv]
  unfold rounded
  rw [hunits]
  simp

theorem valueOf_fixed (places : Nat) (x : Rat) :
    valueOf (Scalar.fixed places x).toList = rounded places x := by
  show valueOf (fixedQuotient places (decide (x < 0)) x.num.natAbs x.den).toList = _
  unfold fixedQuotient rounded
  dsimp only
  rw [String.toList_ofList]
  by_cases hneg : x < 0
  · rw [decide_eq_true hneg, if_pos rfl, if_pos hneg, valueOf_negative, magnitudeOf_placed, neg_div]
    rfl
  · rw [decide_eq_false hneg, if_neg (by decide), if_neg hneg, valueOf_placed, magnitudeOf_placed]
    rfl

theorem rounded_neg (places : Nat) (x : Rat) : rounded places (-x) = -rounded places x := by
  have hunits : roundDiv ((-x).num.natAbs * 10 ^ places) (-x).den =
      roundDiv (x.num.natAbs * 10 ^ places) x.den := by
    rw [Rat.neg_num, Rat.neg_den, Int.natAbs_neg]
  rcases lt_trichotomy x 0 with h | rfl | h
  · unfold rounded
    dsimp only
    rw [hunits, if_pos h, if_neg (by linarith), neg_div, neg_neg]
  · rw [neg_zero, rounded_zero, neg_zero]
  · unfold rounded
    dsimp only
    rw [hunits, if_pos (by linarith), if_neg (by linarith), neg_div]

theorem roundDiv_mul (k num den : Nat) (hk : 0 < k) :
    roundDiv (k * num) (k * den) = roundDiv num den := by
  have hlow (a b : Nat) : 2 * (k * a) < k * b ↔ 2 * a < b := by
    rw [Nat.mul_left_comm, Nat.mul_lt_mul_left hk]
  have hhigh (a b : Nat) : k * a < 2 * (k * b) ↔ a < 2 * b := by
    rw [Nat.mul_left_comm 2, Nat.mul_lt_mul_left hk]
  unfold roundDiv
  dsimp only
  rw [Nat.mul_div_mul_left _ _ hk, Nat.mul_mod_mul_left]
  simp only [hlow, hhigh]

/-- A quotient need not be in lowest terms. -/
theorem rounded_quotient (places num : Nat) {den : Nat} (hden : 0 < den) :
    rounded places ((num : Rat) / den) = (roundDiv (num * 10 ^ places) den : Rat) / 10 ^ places := by
  obtain ⟨k, hnum, hmul⟩ := Rat.exists_eq_mul_div_num_and_eq_mul_div_den num
    (show (den : Int) ≠ 0 by exact_mod_cast hden.ne')
  rw [Int.cast_natCast, Int.cast_natCast] at hnum hmul
  have hpos : (0 : Rat) ≤ (num : Rat) / den := by positivity
  generalize (num : Rat) / den = x at hnum hmul hpos ⊢
  have hk : 0 < k := by
    have hx : (0 : Int) < x.den := by exact_mod_cast x.den_pos
    by_contra hle
    have := mul_nonpos_of_nonpos_of_nonneg (not_lt.1 hle) hx.le
    omega
  obtain ⟨k, rfl⟩ := Int.eq_ofNat_of_zero_le hk.le
  have hnumerator : num = k * x.num.natAbs := by
    have := congrArg Int.natAbs hnum
    rwa [Int.natAbs_mul, Int.natAbs_natCast, Int.natAbs_natCast] at this
  have hdenominator : den = k * x.den := by exact_mod_cast hmul
  unfold rounded
  dsimp only
  rw [if_neg (not_lt.2 hpos), hnumerator, hdenominator, Nat.mul_assoc,
    roundDiv_mul k _ _ (by exact_mod_cast hk)]

theorem valueOf_fixedQuotient (places num : Nat) {den : Nat} (hden : 0 < den) (negative : Bool) :
    valueOf (fixedQuotient places negative num den).toList =
      rounded places (if negative then -((num : Rat) / den) else (num : Rat) / den) := by
  unfold fixedQuotient
  dsimp only
  rw [String.toList_ofList]
  cases negative with
  | false =>
    rw [if_neg (by decide), if_neg (by decide), valueOf_placed, magnitudeOf_placed,
      rounded_quotient places num hden]
    rfl
  | true =>
    rw [if_pos rfl, if_pos rfl, valueOf_negative, magnitudeOf_placed, rounded_neg,
      rounded_quotient places num hden]
    rfl

/-! ## Doubles -/

/-- The number that a double is, if it is finite. -/
def exactValue? (x : Float) : Option Rat :=
  match Binary.ofFloat x with
  | .finite negative m e =>
    let magnitude : Rat := ((m * twoNum e : Nat) : Rat) / (twoDen e : Nat)
    some (if negative then -magnitude else magnitude)
  | _ => none

theorem valueOf_fixedFloat (places : Nat) {x : Float} {q : Rat} (h : exactValue? x = some q) :
    valueOf (fixedFloat places x).toList = rounded places q := by
  unfold exactValue? at h
  unfold fixedFloat
  cases hbinary : Binary.ofFloat x with
  | finite negative m e =>
    rw [hbinary] at h
    cases h
    exact valueOf_fixedQuotient places _ (Nat.pow_pos (by decide)) negative
  | infinite negative =>
    rw [hbinary] at h
    cases h
  | nan =>
    rw [hbinary] at h
    cases h

/-- How far off a number is written with two decimals. -/
def roundingError (x : Rat) : Rat := rounded 2 x - x

theorem abs_roundingError_le (x : Rat) : |roundingError x| ≤ 1 / 200 := by
  have hden : (0 : Rat) < x.den := by exact_mod_cast x.den_pos
  -- without its sign, the number is the quotient that is rounded
  have hnear : |(roundDiv (x.num.natAbs * 10 ^ 2) x.den : Rat) / 10 ^ 2 - (|x|)| ≤
      1 / 200 := by
    obtain ⟨hlow, hhigh⟩ := roundDiv_near (x.num.natAbs * 10 ^ 2) x.den_pos
    generalize roundDiv (x.num.natAbs * 10 ^ 2) x.den = units at hlow hhigh ⊢
    have hlow' : 2 * ((units : Rat) * x.den) ≤ 2 * ((x.num.natAbs : Rat) * 10 ^ 2) + x.den := by
      exact_mod_cast hlow
    have hhigh' : 2 * ((x.num.natAbs : Rat) * 10 ^ 2) ≤ 2 * ((units : Rat) * x.den) + x.den := by
      exact_mod_cast hhigh
    have hquotient : |x| = (x.num.natAbs : Rat) / x.den := by
      rw [Rat.abs_def, Rat.divInt_eq_div]
      norm_num
    have hone : (units : Rat) / 10 ^ 2 - |x| =
        (2 * ((units : Rat) * x.den) - 2 * ((x.num.natAbs : Rat) * 10 ^ 2)) / (200 * x.den) := by
      rw [hquotient]
      field_simp
      ring
    rw [hone, abs_div, abs_of_pos (show (0 : Rat) < 200 * x.den by positivity),
      div_le_iff₀ (by positivity)]
    calc _ ≤ (x.den : Rat) := abs_le.2 ⟨by linarith, by linarith⟩
      _ = 1 / 200 * (200 * x.den) := by ring
  unfold roundingError rounded
  dsimp only
  rcases lt_or_ge x 0 with hneg | hpos
  · rw [if_pos hneg, neg_div, neg_sub_left, abs_neg]
    rw [abs_of_neg hneg, sub_neg_eq_add, add_comm] at hnear
    exact hnear
  · rw [if_neg (not_lt.2 hpos)]
    rw [abs_of_nonneg hpos] at hnear
    exact hnear

end Decimal
end Galley
