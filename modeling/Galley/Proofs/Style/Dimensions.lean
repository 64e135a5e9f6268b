import Mathlib
import Galley.Proofs.Markup.Grammar
import Galley.Style.Measure

/-
How dimensions are written.

`Amount` is a grammar: a sign, digits with or without a fraction, and a unit behind blanks, with
what it comes to.  A text in which no number leads (`Leads`) is no dimension but a name.  Reading
takes as many digits as there are and leaves the rest to the unit, so a unit has to stop both the
digits and the fraction; all units that mean something do (`UnitValue.stops`).
-/

namespace Galley
namespace Style

open Markup

variable {α : Type} [Scalar α]

/-! ## The grammar -/

namespace Sign

def written : Sign → List Char
  | plus => ['+']
  | minus => ['-']
  | absolute => []

/-- A signed size counts from the current one. -/
def count (current size : α) : Sign → α
  | plus => current + size
  | minus => current - size
  | absolute => size

end Sign

/-- `Spelled cs sign n places unit`: the text is `n / 10 ^ places` with a sign before it and a unit
behind it. -/
inductive Spelled : List Char → Sign → Nat → Nat → String → Prop where
  | whole {sign : Sign} {digits blanks : List Char} {n : Nat} {unit : String}
      (hn : Writes 10 decimalValue? digits n) (hblanks : ∀ c ∈ blanks, Text.isBlank c = true) :
      Spelled (sign.written ++ (digits ++ (blanks ++ unit.toList))) sign n 0 unit
  | fraction {sign : Sign} {whole fraction blanks : List Char} {n : Nat} {unit : String}
      (hwhole : whole ≠ []) (hfraction : fraction ≠ [])
      (hn : Writes 10 decimalValue? (whole ++ fraction) n)
      (hblanks : ∀ c ∈ blanks, Text.isBlank c = true) :
      Spelled (sign.written ++ (whole ++ '.' :: (fraction ++ (blanks ++ unit.toList)))) sign n
        fraction.length unit

/-- `UnitValue ctx x unit size`: so many units are a size in points. -/
inductive UnitValue (ctx : MeasureContext α) (x : α) : String → α → Prop where
  | none : UnitValue ctx x "" x
  | point : UnitValue ctx x "pt" x
  | pica : UnitValue ctx x "pc" (x * ((12 : Nat) : α))
  | inch : UnitValue ctx x "in" (x * ((72 : Nat) : α))
  | percent : UnitValue ctx x "%" (ctx.relative * x / ((100 : Nat) : α))
  | em : UnitValue ctx x "em" (x * ctx.em)

inductive Amount (ctx : MeasureContext α) : List Char → α → Prop where
  | mk {cs : List Char} {sign : Sign} {n places : Nat} {unit : String} {size : α}
      (h : Spelled cs sign n places unit)
      (hunit : UnitValue ctx (Scalar.decimal n places) unit size) :
      Amount ctx cs (sign.count ctx.current size)

/-- A number leads, with a sign or without. -/
def Leads (cs : List Char) : Prop :=
  ∃ (sign : Sign) (digit : Char) (rest : List Char), digit.isDigit = true ∧
    cs = sign.written ++ digit :: rest

/-! ## Digits -/

theorem isDigit_iff {c : Char} : c.isDigit = true ↔ '0' ≤ c ∧ c ≤ '9' := by
  simp only [Char.isDigit, Bool.and_eq_true, decide_eq_true_eq]
  exact Iff.rfl

theorem decimalValue?_of_isDigit {c : Char} (h : c.isDigit = true) :
    decimalValue? c = some (c.toNat - '0'.toNat) := by
  rw [decimalValue?, if_pos (isDigit_iff.1 h)]

theorem isDigit_of_decimalValue? {c : Char} (h : (decimalValue? c).isSome = true) :
    c.isDigit = true := by
  rw [isDigit_iff]
  by_contra hc
  rw [decimalValue?, if_neg hc] at h
  cases h

theorem numberFrom?_of_digits {digits : List Char} (h : ∀ c ∈ digits, c.isDigit = true)
    (acc : Nat) : numberFrom? 10 decimalValue? acc digits =
      some (digits.foldl (fun n c => 10 * n + (c.toNat - '0'.toNat)) acc) := by
  induction digits generalizing acc with
  | nil => rfl
  | cons c digits ih =>
    rw [numberFrom?, decimalValue?_of_isDigit (h c List.mem_cons_self), Option.bind_some,
      ih (fun d hd => h d (List.mem_cons_of_mem c hd)), List.foldl_cons]

theorem writes_iff {digits : List Char} {n : Nat} : Writes 10 decimalValue? digits n ↔
    digits ≠ [] ∧ (∀ c ∈ digits, c.isDigit = true) ∧ n = Decimal.ofDigits digits := by
  have hread (hne : digits ≠ []) (hall : ∀ c ∈ digits, c.isDigit = true) :
      number? 10 decimalValue? digits = some (Decimal.ofDigits digits) := by
    rw [number?, if_neg (by simpa using hne), numberFrom?_of_digits hall]
    rfl
  constructor
  · intro h
    have hall : ∀ c ∈ digits, c.isDigit = true := fun c hc =>
      isDigit_of_decimalValue? (h.isSome c hc)
    have hn := number?_eq_some_iff.2 h
    rw [hread h.nonempty hall] at hn
    exact ⟨h.nonempty, hall, (Option.some.inj hn).symm⟩
  · rintro ⟨hne, hall, rfl⟩
    exact number?_eq_some_iff.1 (hread hne hall)

theorem spanDigits_append {digits rest : List Char} (h : ∀ c ∈ digits, c.isDigit = true)
    (hrest : StopsAt Char.isDigit rest) : Decimal.spanDigits (digits ++ rest) = (digits, rest) := by
  have hnone : rest.takeWhile Char.isDigit = [] ∧ rest.dropWhile Char.isDigit = rest := by
    cases rest with
    | nil => exact ⟨rfl, rfl⟩
    | cons c rest =>
      have hc : ¬ c.isDigit = true := by simp [hrest c rfl]
      exact ⟨List.takeWhile_cons_of_neg hc, List.dropWhile_cons_of_neg hc⟩
  rw [Decimal.spanDigits, List.takeWhile_append_of_pos h, List.dropWhile_append_of_pos h,
    hnone.1, hnone.2, List.append_nil]

/-- Digits and what stops them. -/
theorem spanDigits_spec {cs digits rest : List Char} (h : Decimal.spanDigits cs = (digits, rest)) :
    cs = digits ++ rest ∧ (∀ c ∈ digits, c.isDigit = true) ∧ StopsAt Char.isDigit rest := by
  obtain ⟨rfl, rfl⟩ := Prod.mk.inj h
  exact ⟨(List.takeWhile_append_dropWhile).symm, fun c hc => List.mem_takeWhile_imp hc,
    stopsAt_dropWhile _ cs⟩

/-! ## Blanks -/

theorem exists_blanks (cs : List Char) : ∃ before after,
    cs = before ++ (Text.trimBlanks cs ++ after) ∧ (∀ c ∈ before, Text.isBlank c = true) ∧
      ∀ c ∈ after, Text.isBlank c = true := by
  refine ⟨cs.takeWhile Text.isBlank,
    ((cs.dropWhile Text.isBlank).reverse.takeWhile Text.isBlank).reverse, ?_,
    fun c hc => List.mem_takeWhile_imp hc, fun c hc =>
      List.mem_takeWhile_imp (List.mem_reverse.1 hc)⟩
  rw [Text.trimBlanks, ← List.reverse_append, List.takeWhile_append_dropWhile,
    List.reverse_reverse, List.takeWhile_append_dropWhile]

theorem not_isBlank_getLast_trimBlanks (cs : List Char) :
    ∀ c ∈ (Text.trimBlanks cs).getLast?, Text.isBlank c = false := by
  intro c hc
  rw [Text.trimBlanks, List.getLast?_reverse] at hc
  exact stopsAt_dropWhile _ _ c hc

theorem trimBlanks_append {blanks cs : List Char} (h : ∀ c ∈ blanks, Text.isBlank c = true) :
    Text.trimBlanks (blanks ++ cs) = Text.trimBlanks cs := by
  rw [Text.trimBlanks, List.dropWhile_append_of_pos h]
  rfl

/-- A blank stops digits, and is no point. -/
theorem not_isDigit_of_isBlank {c : Char} (h : Text.isBlank c = true) :
    c.isDigit = false ∧ c ≠ '.' := by
  constructor
  · by_contra hc
    rw [Bool.not_eq_false, isDigit_iff] at hc
    have h0 : 0x30 ≤ c.toNat := hc.1
    have h9 : c.toNat ≤ 0x39 := hc.2
    simp only [Text.isBlank, Bool.or_eq_true, Bool.and_eq_true, decide_eq_true_eq] at h
    omega
  · rintro rfl
    revert h
    decide

/-! ## Reading -/

theorem splitSign_written (cs : List Char) :
    cs = (Dimension.splitSign cs).1.written ++ (Dimension.splitSign cs).2 := by
  unfold Dimension.splitSign
  split <;> rfl

theorem splitSign_of_digit {sign : Sign} {digit : Char} {rest : List Char}
    (h : digit.isDigit = true) :
    Dimension.splitSign (sign.written ++ digit :: rest) = (sign, digit :: rest) := by
  cases sign with
  | plus => rfl
  | minus => rfl
  | absolute =>
    have hplus : digit ≠ '+' := by
      rintro rfl
      revert h
      decide
    have hminus : digit ≠ '-' := by
      rintro rfl
      revert h
      decide
    rw [Sign.written, List.nil_append, Dimension.splitSign]
    · intro r heq
      exact hplus (List.cons.inj heq).1
    · intro r heq
      exact hminus (List.cons.inj heq).1

theorem leads_iff {cs : List Char} :
    Leads cs ↔ (Dimension.ofChars? cs : Option (Dimension α)).isSome = true := by
  constructor
  · rintro ⟨sign, digit, rest, hdigit, rfl⟩
    have htake : (digit :: rest).takeWhile Char.isDigit = digit :: rest.takeWhile Char.isDigit :=
      List.takeWhile_cons_of_pos hdigit
    unfold Dimension.ofChars?
    rw [splitSign_of_digit hdigit]
    dsimp only [Decimal.spanDigits]
    rw [htake]
    rfl
  · intro h
    unfold Dimension.ofChars? at h
    dsimp only at h
    split at h
    · cases h
    · next whole rest hne hspan =>
      obtain ⟨hcs, hwhole, -⟩ := spanDigits_spec hspan
      cases whole with
      | nil => exact absurd rfl hne
      | cons digit whole =>
        refine ⟨(Dimension.splitSign cs).1, digit, whole ++ rest, hwhole digit List.mem_cons_self, ?_⟩
        rw [← List.cons_append, ← hcs]
        exact splitSign_written cs

theorem points?_eq_some_iff {d : Dimension α} {ctx : MeasureContext α} {size : α} :
    d.points? ctx = some size ↔ UnitValue ctx d.number d.unit size := by
  obtain ⟨sign, x, unit⟩ := d
  constructor
  · intro h
    unfold Dimension.points? at h
    dsimp only at h
    split at h <;> cases h
    · exact .none
    · exact .point
    · exact .pica
    · exact .inch
    · exact .percent
    · exact .em
  · intro h
    dsimp only at h
    cases h <;> rfl

theorem resolve?_eq_some_iff {d : Dimension α} {ctx : MeasureContext α} {v : α} :
    d.resolve? ctx = some v ↔
      ∃ size, UnitValue ctx d.number d.unit size ∧ v = d.sign.count ctx.current size := by
  rw [Dimension.resolve?, Option.map_eq_some_iff]
  constructor
  · rintro ⟨size, hsize, rfl⟩
    refine ⟨size, points?_eq_some_iff.1 hsize, ?_⟩
    cases d.sign <;> rfl
  · rintro ⟨size, hsize, rfl⟩
    refine ⟨size, points?_eq_some_iff.2 hsize, ?_⟩
    cases d.sign <;> rfl

/-- Nothing in a unit goes on with the number before it. -/
theorem UnitValue.stops {ctx : MeasureContext α} {x size : α} {unit : String}
    (h : UnitValue ctx x unit size) {blanks : List Char}
    (hblanks : ∀ c ∈ blanks, Text.isBlank c = true) :
    StopsAt Char.isDigit (blanks ++ unit.toList) ∧ (blanks ++ unit.toList).head? ≠ some '.' ∧
      String.ofList (Text.trimBlanks (blanks ++ unit.toList)) = unit := by
  have hunit : StopsAt Char.isDigit unit.toList ∧ unit.toList.head? ≠ some '.' ∧
      String.ofList (Text.trimBlanks unit.toList) = unit := by
    cases h <;> simp [StopsAt] <;> decide
  refine ⟨?_, ?_, ?_⟩
  · cases blanks with
    | nil => exact hunit.1
    | cons c blanks =>
      exact stopsAt_cons.2 (not_isDigit_of_isBlank (hblanks c List.mem_cons_self)).1
  · cases blanks with
    | nil => exact hunit.2.1
    | cons c blanks =>
      intro hc
      exact (not_isDigit_of_isBlank (hblanks c List.mem_cons_self)).2 (Option.some.inj hc)
  · rw [trimBlanks_append hblanks]
    exact hunit.2.2

theorem splitFraction_of_head {cs : List Char} (h : cs.head? ≠ some '.') :
    Dimension.splitFraction cs = ([], cs) := by
  unfold Dimension.splitFraction
  split
  · exact absurd rfl h
  · rfl

theorem splitFraction_of_digits {fraction rest : List Char} (hne : fraction ≠ [])
    (h : ∀ c ∈ fraction, c.isDigit = true) (hrest : StopsAt Char.isDigit rest) :
    Dimension.splitFraction ('.' :: (fraction ++ rest)) = (fraction, rest) := by
  rw [Dimension.splitFraction, spanDigits_append h hrest]
  split
  · next heq => exact absurd (Prod.mk.inj heq).1 hne
  · next heq => exact heq.symm

theorem ofChars?_of_spelled {ctx : MeasureContext α} {cs : List Char} {sign : Sign}
    {n places : Nat} {unit : String} {size : α} (h : Spelled cs sign n places unit)
    (hunit : UnitValue ctx (Scalar.decimal n places) unit size) :
    Dimension.ofChars? cs =
      some ({ sign, number := Scalar.decimal n places, unit } : Dimension α) := by
  cases h with
  | @whole _ digits blanks n _ hn hblanks =>
    obtain ⟨hne, hdigits, rfl⟩ := writes_iff.1 hn
    obtain ⟨hstop, hpoint, htrim⟩ := hunit.stops hblanks
    obtain ⟨digit, digits, rfl⟩ := List.exists_cons_of_ne_nil hne
    unfold Dimension.ofChars?
    rw [List.cons_append, splitSign_of_digit (hdigits digit List.mem_cons_self)]
    dsimp only
    rw [← List.cons_append, spanDigits_append hdigits hstop]
    dsimp only
    rw [splitFraction_of_head hpoint, List.append_nil]
    simp only [List.length_nil, htrim]
  | @fraction _ whole fraction blanks n _ hwhole hfraction hn hblanks =>
    obtain ⟨-, hdigits, rfl⟩ := writes_iff.1 hn
    obtain ⟨hstop, -, htrim⟩ := hunit.stops hblanks
    have hleft : ∀ c ∈ whole, c.isDigit = true := fun c hc =>
      hdigits c (List.mem_append_left fraction hc)
    have hright : ∀ c ∈ fraction, c.isDigit = true := fun c hc =>
      hdigits c (List.mem_append_right whole hc)
    obtain ⟨digit, whole, rfl⟩ := List.exists_cons_of_ne_nil hwhole
    unfold Dimension.ofChars?
    rw [List.cons_append, splitSign_of_digit (hleft digit List.mem_cons_self)]
    dsimp only
    rw [← List.cons_append, spanDigits_append hleft (stopsAt_cons.2 (by decide))]
    dsimp only
    rw [splitFraction_of_digits hfraction hright hstop]
    simp only [htrim]

/-- Nothing is left behind the unit of a text without blanks at its end. -/
theorem exists_blanks_before (front rest : List Char)
    (hlast : ∀ c ∈ (front ++ rest).getLast?, Text.isBlank c = false) :
    ∃ blanks, rest = blanks ++ (String.ofList (Text.trimBlanks rest)).toList ∧
      ∀ c ∈ blanks, Text.isBlank c = true := by
  obtain ⟨before, after, hrest, hbefore, hafter⟩ := exists_blanks rest
  obtain rfl : after = [] := by
    by_contra hne
    have hmem := List.getLast_mem hne
    have hend : (front ++ rest).getLast? = some (after.getLast hne) := by
      rw [hrest, ← List.append_assoc, ← List.append_assoc, List.getLast?_append_of_ne_nil _ hne,
        List.getLast?_eq_some_getLast hne]
    have hblank := hafter _ hmem
    rw [hlast _ hend] at hblank
    cases hblank
  refine ⟨before, ?_, hbefore⟩
  rw [String.toList_ofList]
  simpa using hrest

theorem splitFraction_cases (rest : List Char) :
    Dimension.splitFraction rest = ([], rest) ∨
      ∃ fraction unit, Dimension.splitFraction rest = (fraction, unit) ∧ fraction ≠ [] ∧
        (∀ c ∈ fraction, c.isDigit = true) ∧ rest = '.' :: (fraction ++ unit) := by
  unfold Dimension.splitFraction
  split
  · next rest =>
    split
    · exact Or.inl rfl
    · next fraction unit hne hspan =>
      obtain ⟨hrest, hdigits, -⟩ := spanDigits_spec hspan
      exact Or.inr ⟨fraction, unit, rfl, hne, hdigits, by rw [hrest]⟩
  · exact Or.inl rfl

theorem spelled_of_ofChars? {cs : List Char} {d : Dimension α}
    (hlast : ∀ c ∈ cs.getLast?, Text.isBlank c = false)
    (h : Dimension.ofChars? cs = some d) :
    ∃ n places, d.number = Scalar.decimal n places ∧ Spelled cs d.sign n places d.unit := by
  have hcs := splitSign_written cs
  unfold Dimension.ofChars? at h
  dsimp only at h
  split at h
  · cases h
  · next whole rest hne hspan =>
    obtain ⟨hunsigned, hwhole, -⟩ := spanDigits_spec hspan
    rw [hunsigned] at hcs
    cases h
    refine ⟨_, _, rfl, ?_⟩
    dsimp only
    rcases splitFraction_cases rest with hnone | ⟨fraction, unit, hsplit, hne', hdigits, hrest⟩
    · rw [hnone, List.append_nil]
      obtain ⟨blanks, hrest, hblanks⟩ := exists_blanks_before
        ((Dimension.splitSign cs).1.written ++ whole) rest (by rwa [List.append_assoc, ← hcs])
      have h : Spelled _ (Dimension.splitSign cs).1 _ 0 (String.ofList (Text.trimBlanks rest)) :=
        .whole (writes_iff.2 ⟨hne, hwhole, rfl⟩) hblanks
      rwa [← hrest, ← hcs] at h
    · rw [hsplit]
      dsimp only
      rw [hrest] at hcs
      obtain ⟨blanks, hunit, hblanks⟩ := exists_blanks_before
        ((Dimension.splitSign cs).1.written ++ (whole ++ '.' :: fraction)) unit
        (by simpa [← hcs] using hlast)
      have hboth : ∀ c ∈ whole ++ fraction, c.isDigit = true := by
        intro c hc
        rcases List.mem_append.1 hc with hc | hc
        · exact hwhole c hc
        · exact hdigits c hc
      have h : Spelled _ (Dimension.splitSign cs).1 _ fraction.length
          (String.ofList (Text.trimBlanks unit)) :=
        .fraction hne hne' (writes_iff.2 ⟨by simp [hne'], hboth, rfl⟩) hblanks
      rwa [← hunit, ← hcs] at h

/-- A text without blanks at its end is read as the amounts that it spells. -/
theorem amount_iff {ctx : MeasureContext α} {cs : List Char} {v : α}
    (hlast : ∀ c ∈ cs.getLast?, Text.isBlank c = false) :
    Amount ctx cs v ↔ ∃ d, Dimension.ofChars? cs = some d ∧ d.resolve? ctx = some v := by
  constructor
  · rintro ⟨hspelled, hunit⟩
    exact ⟨_, ofChars?_of_spelled hspelled hunit, resolve?_eq_some_iff.2 ⟨_, hunit, rfl⟩⟩
  · rintro ⟨d, hd, hv⟩
    obtain ⟨n, places, hnumber, hspelled⟩ := spelled_of_ofChars? hlast hd
    obtain ⟨size, hunit, rfl⟩ := resolve?_eq_some_iff.1 hv
    rw [hnumber] at hunit
    exact .mk hspelled hunit

end Style
end Galley
