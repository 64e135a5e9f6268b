import Galley.Proofs.Paragraph.Optimality

/-
Some attempt at a paragraph finds breaks.

A line goes on at least to its first break opportunity, since it could not have ended before.  If
nothing visible is left there, it goes on to the end of the paragraph; otherwise it may end there.
What it then leaves empty is no more than the width, so a tolerance of the square of the width
admits it.  Wherever a line starts, the paragraph can therefore be broken from there on
(`exists_chain`), and the last attempt finds breaks if none does before.
-/

namespace Galley
namespace Paragraph

variable {limits : Limits Rat} {items : List (Instruction Rat)}

/-! ## How far a line goes at least -/

theorem first_opportunity (items : List (Instruction Rat)) :
    (∀ j ∈ items, j.breakOpportunity = false) ∨
      ∃ front i rest, items = front ++ i :: rest ∧ (∀ j ∈ front, j.breakOpportunity = false) ∧
        i.breakOpportunity = true := by
  cases hfind : items.find? Instruction.breakOpportunity with
  | none =>
    left
    intro j hj
    simpa using List.find?_eq_none.1 hfind j hj
  | some i =>
    obtain ⟨hi, front, rest, hitems, hfront⟩ := List.find?_eq_some_iff_append.1 hfind
    exact Or.inr ⟨front, i, rest, hitems, fun j hj => by simpa using hfront j hj, hi⟩

theorem keepsTo_of_unbreakable {width : Rat} {line : List (Instruction Rat)}
    (h : ∀ j ∈ line, j.breakOpportunity = false) (i : Instruction Rat) :
    KeepsTo width (line ++ [i]) := by
  refine Everywhere.concat_iff.2 ⟨?_, fun _ => Or.inr h⟩
  intro before j after hline _
  right
  intro k hk
  apply h
  rw [hline]
  exact List.mem_append_left _ hk

/-- What fits without white space on it is no wider than the column. -/
theorem FitsIn.totalWidth_le {width : Rat} {line : List (Instruction Rat)}
    (h : FitsIn width line) (hwidth : 0 ≤ width + Scalar.epsilon)
    (hw : ∀ j ∈ line, 0 ≤ j.width) (hd : ∀ j ∈ line, j.discardable = false) :
    totalWidth line ≤ width + Scalar.epsilon := by
  induction line using List.reverseRecOn with
  | nil => exact hwidth
  | append_singleton line i ih =>
    obtain ⟨hline, hi⟩ := (fitsIn_concat_iff width line i).1 h
    have hle : totalWidth line ≤ width + Scalar.epsilon :=
      ih hline (fun j hj => hw j (List.mem_append_left _ hj))
        fun j hj => hd j (List.mem_append_left _ hj)
    by_cases hvisible : i.isVisible = true
    · by_contra hwide
      exact hi ((overflows_iff width line i).2 ⟨hvisible, not_le.1 hwide⟩)
    · have hwi : i.width ≤ 0 := by
        rw [Instruction.isVisible_iff, Instruction.solidWidth_of_not_discardable
          (hd i (by simp))] at hvisible
        exact not_lt.1 hvisible
      rw [totalWidth_concat]
      linarith

/-- The room that a line leaves up to its first break opportunity is at most the width. -/
theorem room_sq_le {width : Rat} {front : List (Instruction Rat)} {i : Instruction Rat}
    (hfits : FitsIn width (front ++ [i])) (hwidth : Scalar.epsilon ≤ width)
    (hmade : ∀ j ∈ front, j.Made) (hw : ∀ j ∈ front ++ [i], 0 ≤ j.width)
    (hfront : ∀ j ∈ front, j.breakOpportunity = false) :
    (width - (totalWidth front + i.solidWidth)) ^ 2 ≤ width ^ 2 := by
  have hslack := Scalar.epsilon_pos
  have hwfront : ∀ j ∈ front, 0 ≤ j.width := fun j hj => hw j (List.mem_append_left _ hj)
  have hdfront : ∀ j ∈ front, j.discardable = false :=
    fun j hj => (hmade j hj).not_discardable (hfront j hj)
  obtain ⟨hfitsFront, hi⟩ := (fitsIn_concat_iff width front i).1 hfits
  have hfrontWidth : 0 ≤ totalWidth front := totalWidth_nonneg hwfront
  have hle : totalWidth front ≤ width + Scalar.epsilon :=
    hfitsFront.totalWidth_le (by linarith) hwfront hdfront
  -- what is shown of the last instruction fits behind the others
  have hsolid : 0 ≤ i.solidWidth ∧ totalWidth front + i.solidWidth ≤ width + Scalar.epsilon := by
    cases hd : i.discardable with
    | true =>
      rw [Instruction.solidWidth_of_discardable hd, add_zero]
      exact ⟨le_refl _, hle⟩
    | false =>
      refine ⟨?_, ?_⟩
      · rw [Instruction.solidWidth_of_not_discardable hd]
        exact hw i (by simp)
      · by_cases hpos : 0 < i.solidWidth
        · exact not_lt.1 fun hwide => hi ⟨hpos, hwide⟩
        · linarith [not_lt.1 hpos]
  have hnonneg : 0 ≤ width := by linarith
  rw [sq_le_sq, abs_of_nonneg hnonneg, abs_le]
  constructor <;> linarith

/-! ## From any place on -/

theorem exists_costs (limits : Limits Rat) (line : List (Instruction Rat)) (otherwise : Rat) :
    ∃ cost, Costs limits line otherwise cost := by
  by_cases hfits : FitsIn limits.width line
  · exact ⟨otherwise, Or.inr ⟨hfits, rfl⟩⟩
  · exact ⟨limits.penalty, Or.inl ⟨hfits, rfl⟩⟩

/-- A line that shows nothing behind a break opportunity can be the last. -/
theorem lastLine_of_blank {s : Nat}
    (h : Everywhere (fun _ j after => j.breakOpportunity = true → Blank after) (items.drop s)) :
    ∃ cost, LastLine limits items s cost := by
  obtain ⟨cost, hcost⟩ := exists_costs limits (items.drop s) 0
  refine ⟨cost, ?_, ?_, hcost⟩
  · intro before j after hitems hb
    rintro ⟨k, hk, hvisible⟩
    rw [h before j after hitems hb k hk] at hvisible
    cases hvisible
  · intro before i after hitems hvisible
    right
    intro j hj
    rw [Bool.eq_false_iff]
    intro hb
    -- `i` is visible behind `j`
    obtain ⟨front, back, rfl⟩ := List.append_of_mem hj
    have hblank := h front j (back ++ i :: after) (by rw [hitems]; simp) hb
    rw [hblank i (by simp)] at hvisible
    cases hvisible

/-- A line may end with its first break opportunity, if something is shown behind it. -/
theorem exists_allowed {s : Nat} {front rest : List (Instruction Rat)} {i : Instruction Rat}
    (hitems : items.drop s = front ++ i :: rest)
    (hfront : ∀ j ∈ front, j.breakOpportunity = false) (hi : i.breakOpportunity = true)
    (hshows : ∃ j ∈ rest, j.isVisible = true) (hmade : ∀ j ∈ items, j.Made)
    (hw : ∀ j ∈ items, 0 ≤ j.width) (hwidth : Scalar.epsilon ≤ limits.width)
    (htolerance : limits.width ^ 2 ≤ limits.tolerance) :
    ∃ t cost, Allowed limits items s t cost := by
  have hmem : ∀ j ∈ front ++ [i], j ∈ items := by
    intro j hj
    apply List.mem_of_mem_drop
    rw [hitems, List.append_cons]
    exact List.mem_append_left _ hj
  obtain ⟨cost, hcost⟩ := exists_costs limits (front ++ [i])
    ((limits.width - (totalWidth front + i.solidWidth)) ^ 2)
  obtain ⟨spaces, next, more, rfl, hspaces, hnext⟩ := exists_next_of_shows hshows
  refine ⟨_, cost, front, i, spaces, next, more, hitems, hspaces, hnext, rfl, ?_⟩
  exact
    { opportunity := hi
      shows := hshows
      firstSpace := by
        intro _ j hj
        have hj := List.mem_of_getLast? hj
        exact (hmade j (hmem j (List.mem_append_left _ hj))).not_discardable (hfront j hj)
      room := by
        intro before j after hline hb
        rw [hfront j (by rw [hline]; simp)] at hb
        cases hb
      keeps := keepsTo_of_unbreakable hfront i
      costs := hcost
      tolerated := by
        intro hfits
        rcases hcost with ⟨hnot, -⟩ | ⟨-, rfl⟩
        · exact absurd hfits hnot
        · refine (room_sq_le hfits hwidth ?_ ?_ hfront).trans htolerance
          · exact fun j hj => hmade j (hmem j (List.mem_append_left _ hj))
          · exact fun j hj => hw j (hmem j hj) }

/-- Wherever a line starts, it may be the last or lead to another. -/
theorem lastLine_or_allowed (hmade : ∀ j ∈ items, j.Made) (hw : ∀ j ∈ items, 0 ≤ j.width)
    (hwidth : Scalar.epsilon ≤ limits.width) (htolerance : limits.width ^ 2 ≤ limits.tolerance)
    (s : Nat) :
    (∃ cost, LastLine limits items s cost) ∨ ∃ t cost, Allowed limits items s t cost := by
  rcases first_opportunity (items.drop s) with hnone | ⟨front, i, rest, hitems, hfront, hi⟩
  · left
    apply lastLine_of_blank
    intro before j after hline hb
    rw [hnone j (by rw [hline]; simp)] at hb
    cases hb
  · by_cases hshows : ∃ j ∈ rest, j.isVisible = true
    · exact Or.inr (exists_allowed hitems hfront hi hshows hmade hw hwidth htolerance)
    · have hblank : Blank rest := fun j hj =>
        Bool.eq_false_iff.2 fun hvisible => hshows ⟨j, hj, hvisible⟩
      left
      apply lastLine_of_blank
      rw [hitems, Everywhere.append_iff, Everywhere.cons_iff]
      refine ⟨fun before j after hline hb => ?_, fun _ => hblank,
        fun before j after hline _ k hk => hblank k (by rw [hline]; simp [hk])⟩
      rw [hfront j (by rw [hline]; simp)] at hb
      cases hb

theorem Allowed.lt {s t : Nat} {cost : Rat} (h : Allowed limits items s t cost) :
    s < t ∧ t < items.length := by
  obtain ⟨front, i, spaces, next, more, hitems, -, -, rfl, -⟩ := h
  have hlength := congrArg List.length hitems
  simp only [List.length_drop, List.length_append, List.length_cons] at hlength
  omega

theorem exists_chain (hmade : ∀ j ∈ items, j.Made) (hw : ∀ j ∈ items, 0 ≤ j.width)
    (hwidth : Scalar.epsilon ≤ limits.width) (htolerance : limits.width ^ 2 ≤ limits.tolerance)
    (s : Nat) : ∃ starts cost, Chain limits items s starts cost := by
  -- the lines get on through the paragraph, so what is left of it gets less
  induction hn : items.length - s using Nat.strong_induction_on generalizing s with
  | _ n ih =>
    rcases lastLine_or_allowed hmade hw hwidth htolerance s with
      ⟨cost, hlast⟩ | ⟨t, cost, hallowed⟩
    · exact ⟨[s], cost, .last hlast⟩
    · obtain ⟨hst, ht⟩ := hallowed.lt
      obtain ⟨starts, others, hrest⟩ := ih (items.length - t) (by omega) t rfl
      exact ⟨s :: starts, cost + others, .line hallowed hrest⟩

/-! ## The attempts at a paragraph -/

/-- The first attempt that finds breaks, among those that are left. -/
theorem attemptBreaks_finds {width : Rat} {config : OptimalConfig Rat}
    {items : List (Instruction Rat)} {left attempt n : Nat} (hle : attempt ≤ n)
    (hlt : n < attempt + left)
    (h : ∃ starts, findBreaks (config.limitsAt width n) items = some starts) :
    ∃ m starts, m ≤ n ∧ findBreaks (config.limitsAt width m) items = some starts ∧
      attemptBreaks width config items left attempt = some starts := by
  induction left generalizing attempt with
  | zero => omega
  | succ left ih =>
    rw [attemptBreaks]
    cases hfound : findBreaks (config.limitsAt width attempt) items with
    | some starts =>
      refine ⟨attempt, starts, hle, hfound, ?_⟩
      unfold OptimalConfig.limitsAt at hfound
      simp only [hfound]
    | none =>
      have hne : attempt ≠ n := by
        rintro rfl
        obtain ⟨starts, hstarts⟩ := h
        rw [hfound] at hstarts
        cases hstarts
      obtain ⟨m, starts, hm, hstarts, hattempt⟩ :=
        ih (show attempt + 1 ≤ n by omega) (by omega)
      refine ⟨m, starts, hm, hstarts, ?_⟩
      unfold OptimalConfig.limitsAt at hfound
      simp only [hfound]
      exact hattempt

/-- An attempt finds breaks, and the lines of the paragraph are what is cut there. -/
def FoundBySearch (width : Rat) (config : OptimalConfig Rat) (items : List (Instruction Rat)) :
    Prop :=
  ∃ n starts, n ≤ config.maxRetries ∧ findBreaks (config.limitsAt width n) items = some starts ∧
    attemptBreaks width config items (config.maxRetries + 1) 0 = some starts ∧
    ∀ justify fonts, breakLines width config justify fonts items =
      if justify then padLast width fonts (linesOfPieces (cutAt 0 items (starts.drop 1)))
      else linesOfPieces (cutAt 0 items (starts.drop 1))

theorem standard_tolerance (width : Rat) :
    width ^ 2 ≤ (OptimalConfig.standard : OptimalConfig Rat).tolerance width
      (OptimalConfig.standard : OptimalConfig Rat).maxRetries := by
  have hratio : (OptimalConfig.standard : OptimalConfig Rat).initialToleranceRatio = 1 / 5 := by
    decide +kernel
  have hgrowth : Scalar.power (OptimalConfig.standard : OptimalConfig Rat).growth
      (OptimalConfig.standard : OptimalConfig Rat).maxRetries = 4096 := by
    decide +kernel
  unfold OptimalConfig.tolerance
  rw [hratio, hgrowth, Scalar.power_two]
  linarith [sq_nonneg width, mul_pow (1 / 5 : Rat) width 2]

/-- A paragraph is never broken greedily when the last attempt tolerates the square of the width,
which the standard attempts do. -/
theorem breaks_found_by_search (width : Rat) (items : List (Instruction Rat))
    (hitems : items ≠ []) (hmade : ∀ i ∈ items, i.Made) (hw : ∀ i ∈ items, 0 ≤ i.width)
    (hwidth : Scalar.epsilon ≤ width) :
    (∀ config : OptimalConfig Rat, 0 < config.overflowPenalty →
      width ^ 2 ≤ config.tolerance width config.maxRetries →
        FoundBySearch width config items) ∧
      FoundBySearch width .standard items := by
  have hfound (config : OptimalConfig Rat) (hpenalty : 0 < config.overflowPenalty)
      (htolerance : width ^ 2 ≤ config.tolerance width config.maxRetries) :
      FoundBySearch width config items := by
    obtain ⟨starts, cost, hchain⟩ : ∃ starts cost,
        Chain (config.limitsAt width config.maxRetries) items 0 starts cost :=
      exists_chain hmade hw hwidth htolerance 0
    obtain ⟨bs, s, c, hbs, hc, -, -⟩ := (chain_iff hpenalty _ _ _ _).1 hchain
    obtain ⟨n, starts, hn, hstarts, hattempt⟩ :=
      attemptBreaks_finds (Nat.zero_le config.maxRetries)
        (show config.maxRetries < 0 + (config.maxRetries + 1) by omega)
        (findBreaks_exists hitems hbs hc)
    exact ⟨n, starts, hn, hstarts, hattempt, fun justify fonts => breakLines_of_attempt hattempt⟩
  exact ⟨hfound, hfound .standard (by decide +kernel) (standard_tolerance width)⟩

/-- Two words in a column that holds the shorter one, and a tolerance of no more than its square. -/
theorem words_found_by_search :
    Sample.words ≠ [] ∧ (∀ i ∈ Sample.words, i.Made) ∧ (∀ i ∈ Sample.words, 0 ≤ i.width) ∧
      (Scalar.epsilon : Rat) ≤ 12 ∧
      FoundBySearch 12 { (.standard : OptimalConfig Rat) with
        initialToleranceRatio := 1, maxRetries := 0 } Sample.words ∧
      FoundBySearch 12 .standard Sample.words := by
  have hitems : Sample.words ≠ [] := by simp [Sample.words]
  have hwidth : (Scalar.epsilon : Rat) ≤ 12 := by decide +kernel
  have h := breaks_found_by_search 12 Sample.words hitems Sample.words_made Sample.words_nonneg
    hwidth
  refine ⟨hitems, Sample.words_made, Sample.words_nonneg, hwidth, ?_, h.2⟩
  exact h.1 _ (by decide +kernel) (by decide +kernel)

end Paragraph
end Galley
