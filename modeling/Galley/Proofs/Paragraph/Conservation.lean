import Galley.Proofs.Paragraph.BreakLines

/-
Breaking into lines loses nothing, repeats nothing and reorders nothing.

The instructions are cut into consecutive segments, one for each line, and white space at the end
(`Cut`); each line is its segment but for white space before the first and after the last visible
instruction of it (`Trimmed`).
-/

namespace Galley
namespace Paragraph

variable {α : Type} [Scalar α]

/-! ## White space lost in front

A greedy line may drop white space in front of what it shows and then give instructions back that
came before it.  The next line is therefore not taken from a suffix of the input, but from one
that has lost white space in front of its first visible instruction. -/

/-- `rest` is `items` without some white space before its first visible instruction. -/
inductive FrontTrimmed : List (Instruction α) → List (Instruction α) → Prop where
  | same (items : List (Instruction α)) : FrontTrimmed items items
  | keep {i : Instruction α} {items rest : List (Instruction α)} (hi : i.isVisible = false)
      (h : FrontTrimmed items rest) : FrontTrimmed (i :: items) (i :: rest)
  | drop {i : Instruction α} {items rest : List (Instruction α)} (hd : i.discardable = true)
      (h : FrontTrimmed items rest) : FrontTrimmed (i :: items) rest

namespace FrontTrimmed

theorem append_right {a b : List (Instruction α)} (h : FrontTrimmed a b)
    (c : List (Instruction α)) : FrontTrimmed (a ++ c) (b ++ c) := by
  induction h with
  | same items => exact .same (items ++ c)
  | keep hi _ ih => exact .keep hi ih
  | drop hd _ ih => exact .drop hd ih

theorem concat_drop {a b : List (Instruction α)} (h : FrontTrimmed a b) (hb : Blank b)
    {i : Instruction α} (hd : i.discardable = true) : FrontTrimmed (a ++ [i]) b := by
  induction h with
  | same items =>
    induction items with
    | nil => exact .drop hd (.same [])
    | cons j items ih => exact .keep hb.head (ih hb.tail)
  | keep hi _ ih => exact .keep hi (ih hb.tail)
  | drop hj _ ih => exact .drop hj (ih hb)

theorem trans {a b c : List (Instruction α)} (hab : FrontTrimmed a b) (hbc : FrontTrimmed b c) :
    FrontTrimmed a c := by
  induction hab generalizing c with
  | same => exact hbc
  | keep hi hab ih =>
    cases hbc with
    | same => exact .keep hi hab
    | keep _ hbc => exact .keep hi (ih hbc)
    | drop hd hbc => exact .drop hd (ih hbc)
  | drop hd _ ih => exact .drop hd (ih hbc)

/-- Where what is left is cut in two, so is what it is left of. -/
theorem split {a b c : List (Instruction α)} (h : FrontTrimmed a (b ++ c)) :
    ∃ a₁ a₂, a = a₁ ++ a₂ ∧ FrontTrimmed a₁ b ∧ FrontTrimmed a₂ c := by
  generalize hbc : b ++ c = bc at h
  induction h generalizing b with
  | same items => exact ⟨b, c, hbc.symm, .same b, .same c⟩
  | @keep i items rest hi h ih =>
    cases b with
    | nil =>
      rw [List.nil_append] at hbc
      exact ⟨[], i :: items, rfl, .same [], hbc ▸ .keep hi h⟩
    | cons j b =>
      obtain ⟨rfl, hrest⟩ : j = i ∧ b ++ c = rest := by simpa using hbc
      obtain ⟨a₁, a₂, rfl, h₁, h₂⟩ := ih hrest
      exact ⟨j :: a₁, a₂, rfl, .keep hi h₁, h₂⟩
  | @drop i items rest hd _ ih =>
    obtain ⟨a₁, a₂, rfl, h₁, h₂⟩ := ih hbc
    exact ⟨i :: a₁, a₂, rfl, .drop hd h₁, h₂⟩

/-- Where what there was is cut in two, so is what is left of it. -/
theorem append_left {a₁ a₂ b : List (Instruction α)} (h : FrontTrimmed (a₁ ++ a₂) b) :
    ∃ b₁ b₂, b = b₁ ++ b₂ ∧ FrontTrimmed a₁ b₁ ∧ FrontTrimmed a₂ b₂ := by
  induction a₁ generalizing b with
  | nil => exact ⟨[], b, rfl, .same [], h⟩
  | cons i a₁ ih =>
    cases h with
    | same => exact ⟨i :: a₁, a₂, rfl, .same _, .same a₂⟩
    | keep hi h =>
      obtain ⟨b₁, b₂, rfl, h₁, h₂⟩ := ih h
      exact ⟨i :: b₁, b₂, rfl, .keep hi h₁, h₂⟩
    | drop hd h =>
      obtain ⟨b₁, b₂, rfl, h₁, h₂⟩ := ih h
      exact ⟨b₁, b₂, rfl, .drop hd h₁, h₂⟩

theorem discardable_of_nil {a : List (Instruction α)} (h : FrontTrimmed a []) :
    ∀ i ∈ a, i.discardable = true := by
  generalize hb : ([] : List (Instruction α)) = b at h
  induction h with
  | same => simp [← hb]
  | keep => cases hb
  | drop hd _ ih =>
    intro j hj
    rcases List.mem_cons.1 hj with rfl | hj
    · exact hd
    · exact ih hb j hj

theorem ne_nil {a b : List (Instruction α)} (h : FrontTrimmed a b) (hb : b ≠ []) : a ≠ [] := by
  rintro rfl
  cases h
  exact hb rfl

theorem trimmed [Scalar.KeepsSign α] {a b : List (Instruction α)} (h : FrontTrimmed a b) :
    Trimmed a b := by
  induction h with
  | same items => exact Kept.refl false items
  | keep hi _ ih =>
    refine .keep _ ?_
    rw [hi]
    exact ih
  | drop hd _ ih => exact .drop hd (Or.inl rfl) ih

end FrontTrimmed

/-! ## One greedy line -/

/-- What filling a line has done with `items` so far. -/
structure Account (items : List (Instruction α)) (f : Filling α) : Prop where
  taken : ∃ consumed, items = consumed ++ f.rest ∧ FrontTrimmed consumed f.line
  filled_nonneg : 0 ≤ f.filled
  filled_pos : ¬ Blank f.line → 0 < f.filled
  cut_pos : ∀ c, f.cut = some c → 0 < c ∧ c ≤ f.line.length

section

variable [Scalar.KeepsSign α]

open Scalar.KeepsSign

theorem account_start (items : List (Instruction α)) : Account items (.start items) where
  taken := ⟨[], rfl, .same []⟩
  filled_nonneg := zero_le_zero
  filled_pos := fun h => absurd (show Blank [] by simp [Blank]) h
  cut_pos := by simp [Filling.start]

theorem Account.step {width : α} {items : List (Instruction α)} {f g : Filling α}
    (hw : ∀ i ∈ items, 0 ≤ i.width) (hs : FillStep width f g) (h : Account items f) :
    Account items g := by
  obtain ⟨consumed, hitems, hfront⟩ := h.taken
  cases hs with
  | @take line rest filled cut i hf ho hd =>
    have hwi : 0 ≤ i.width := hw i (by simp [hitems])
    refine ⟨⟨consumed ++ [i], by simp [hitems], hfront.append_right [i]⟩,
      add_nonneg h.filled_nonneg hwi, fun hvisible => ?_, fun c hc => ?_⟩
    · by_cases hline : Blank line
      · have hi : ¬ i.isVisible = false := by
          intro hi
          exact hvisible (hline.append (Blank.cons hi (by simp [Blank])))
        exact add_pos_right h.filled_nonneg
          (Instruction.width_pos_of_isVisible (by simpa using hi))
      · exact add_pos_left (h.filled_pos hline) hwi
    · simp only [List.length_append, List.length_singleton]
      unfold cutAfter at hc
      split at hc
      · cases hc
        omega
      · have := h.cut_pos c hc
        dsimp only at this
        omega
  | @drop line rest filled cut i hf hd hwide hz =>
    -- nothing visible is on the line yet, or it would have a width
    have hblank : Blank line := by
      by_contra hline
      exact not_pos_of_beq_zero hz (h.filled_pos hline)
    exact ⟨⟨consumed ++ [i], by simp [hitems], hfront.concat_drop hblank hd⟩,
      h.filled_nonneg, h.filled_pos, h.cut_pos⟩

theorem Account.run {width : α} {items : List (Instruction α)} {f g : Filling α}
    (hw : ∀ i ∈ items, 0 ≤ i.width) (hsteps : Relation.ReflTransGen (FillStep width) f g)
    (h : Account items f) : Account items g :=
  keep_of_fillSteps (fun _ _ hs hf => hf.step hw hs) hsteps h

/-- A greedy line is a segment of what it is taken from, trimmed, and leaves the rest with white
space lost in front at most. -/
theorem greedyLine_segment {width : α} {items rest : List (Instruction α)} {l : Line α}
    (hmade : ∀ i ∈ items, i.Made) (hw : ∀ i ∈ items, 0 ≤ i.width)
    (h : greedyLine width items = (.ok (some l), rest)) :
    ∃ segment left, items = segment ++ left ∧ segment ≠ [] ∧
      Trimmed segment l.instructions ∧ FrontTrimmed left rest := by
  obtain ⟨f, hsteps, hend⟩ := FillRun.of_greedyLine h
  have hf := (account_start items).run hw hsteps
  obtain ⟨consumed, hitems, hfront⟩ := hf.taken
  have hrest : ∀ i ∈ f.rest, i.Made := fun i hi => hmade i (by simp [hitems, hi])
  have hconsumed : ∀ i ∈ consumed, i.Made := fun i hi => hmade i (by simp [hitems, hi])
  have hline : ∀ i ∈ f.line, i.Made :=
    fun i hi => hconsumed i (hfront.trimmed.sublist.subset hi)
  rcases hend.line_cases hrest with
    ⟨passed, hpassed, hblank, hne, hl⟩ | ⟨c, hc, rfl, hl⟩
  · refine ⟨consumed ++ passed, rest, by simp [hitems, hpassed], ?_, ?_, .same rest⟩
    · intro hnil
      obtain ⟨hnil, hpassednil⟩ := List.append_eq_nil_iff.1 hnil
      by_cases hl : f.line = []
      · exact hne (by simp [hl, hpassednil])
      · exact hfront.ne_nil hl hnil
    · rw [hl]
      refine (hfront.trimmed.append_solidPart hblank).trans (trimmed_trim ?_)
      intro i hi
      rcases List.mem_append.1 hi with hi | hi
      · exact hline i hi
      · exact hrest i (by rw [hpassed]; exact List.mem_append_left _ (List.mem_filter.1 hi).1)
  · obtain ⟨hpos, hle⟩ := hf.cut_pos c hc
    rw [← List.take_append_drop c f.line] at hfront
    obtain ⟨segment, left, rfl, hsegment, hleft⟩ := hfront.split
    refine ⟨segment, left ++ f.rest, by simp [hitems], ?_, ?_, hleft.append_right f.rest⟩
    · refine hsegment.ne_nil fun hnil => ?_
      have := congrArg List.length hnil
      simp only [List.length_take, List.length_nil] at this
      omega
    · rw [hl]
      exact hsegment.trimmed.trans
        (trimmed_trim fun i hi => hline i (List.take_subset c f.line hi))

theorem greedyLine_nothing {width : α} {items rest : List (Instruction α)}
    (hw : ∀ i ∈ items, 0 ≤ i.width) (h : greedyLine width items = (.ok none, rest)) :
    FrontTrimmed items [] := by
  obtain ⟨f, hsteps, hend⟩ := FillRun.of_greedyLine h
  obtain ⟨consumed, hitems, hfront⟩ := ((account_start items).run hw hsteps).taken
  cases hend
  simpa [hitems] using hfront

end

/-! ## All lines -/

/-- Consecutive segments of a list, with white space left at its end. -/
structure Cut (items : List (Instruction α)) (segments : List (List (Instruction α)))
    (left : List (Instruction α)) : Prop where
  consecutive : items = segments.flatten ++ left
  nonempty : [] ∉ segments
  white : ∀ i ∈ left, i.discardable = true

/-- The lines hold what the list holds: each is a segment of it, trimmed. -/
def Conserves (items : List (Instruction α)) (lines : List (List (Instruction α))) : Prop :=
  ∃ segments left, Cut items segments left ∧ List.Forall₂ Trimmed segments lines

/-- The lines are the same but for a strut that fills the last up to the width. -/
def FilledFrom (width : α) (fonts : Font.FontService α)
    (bare lines : List (List (Instruction α))) : Prop :=
  ∃ init last state, bare = init ++ [last] ∧ 0 < width - totalWidth last ∧
    lines = init ++ [last ++ [.strut (width - totalWidth last) state fonts]]

section

variable [Scalar.KeepsSign α]

theorem FrontTrimmed.conserves_greedyLines (width : α) {items rest : List (Instruction α)}
    (hmade : ∀ i ∈ items, i.Made) (hw : ∀ i ∈ items, 0 ≤ i.width)
    (h : FrontTrimmed items rest) :
    Conserves items ((greedyLines width rest).map Line.instructions) := by
  induction hn : rest.length using Nat.strong_induction_on generalizing items rest with
  | _ n ih =>
    have hsub : ∀ i ∈ rest, i ∈ items := fun i hi => h.trimmed.sublist.subset hi
    have hmade' : ∀ i ∈ rest, i.Made := fun i hi => hmade i (hsub i hi)
    have hw' : ∀ i ∈ rest, 0 ≤ i.width := fun i hi => hw i (hsub i hi)
    -- the list is cut where `rest` is, and what is lost in front goes to the segment behind it
    rcases greedyLines_cases width rest with ⟨_, hnone, hlines⟩ | ⟨l, more, hsome, hlt, hlines⟩
    · have hwhite := (h.trans (greedyLine_nothing hw' hnone)).discardable_of_nil
      rw [hlines]
      exact ⟨[], items, ⟨rfl, by simp, hwhite⟩, .nil⟩
    · obtain ⟨segment, left, rfl, hne, hl, hleft⟩ := greedyLine_segment hmade' hw' hsome
      obtain ⟨first, others, rfl, hfirst, hothers⟩ := h.split
      obtain ⟨segments, white, hcut, hall⟩ :=
        ih more.length (by omega) (fun i hi => hmade i (List.mem_append_right first hi))
          (fun i hi => hw i (List.mem_append_right first hi)) (hothers.trans hleft) rfl
      rw [hlines]
      refine ⟨first :: segments, white, ⟨?_, ?_, hcut.white⟩,
        .cons (hfirst.trimmed.trans hl) hall⟩
      · rw [hcut.consecutive, List.flatten_cons, List.append_assoc]
      · rw [List.mem_cons, not_or]
        exact ⟨(hfirst.ne_nil hne).symm, hcut.nonempty⟩

theorem conserves_linesOfPieces {items : List (Instruction α)}
    {pieces : List (List (Instruction α))}
    (hmade : ∀ i ∈ items, i.Made) (hflatten : pieces.flatten = items) (hne : [] ∉ pieces) :
    Conserves items ((linesOfPieces pieces).map Line.instructions) := by
  refine ⟨pieces, [], ⟨by simp [hflatten], hne, by simp⟩, ?_⟩
  rw [instructions_linesOfPieces, List.forall₂_map_right_iff, List.forall₂_same]
  intro piece hpiece
  exact trimmed_trim fun i hi =>
    hmade i (hflatten ▸ List.mem_flatten.2 ⟨piece, hpiece, hi⟩)

omit [Scalar.KeepsSign α] in
theorem filledFrom_padLast (width : α) (fonts : Font.FontService α)
    (pieces : List (List (Instruction α))) :
    padLast width fonts (linesOfPieces pieces) = linesOfPieces pieces ∨
      FilledFrom width fonts ((linesOfPieces pieces).map Line.instructions)
        ((padLast width fonts (linesOfPieces pieces)).map Line.instructions) := by
  rcases padLast_cases width fonts (linesOfPieces pieces) with
    heq | ⟨init, last, state, hlines, hroom, heq⟩
  · exact Or.inl heq
  · obtain ⟨piece, _, hard, hlast⟩ :=
      mem_linesOfPieces (show last ∈ linesOfPieces pieces by simp [hlines])
    have hwidth : last.width = totalWidth last.instructions := by
      rw [hlast]
      exact width_ofInstructions piece hard
    rw [hwidth] at hroom heq
    refine Or.inr ⟨init.map Line.instructions, last.instructions, state, ?_, hroom, ?_⟩
    · rw [hlines]
      simp
    · rw [heq]
      simp [Line.measured]

/-- Neither way of breaking lines loses, repeats or reorders anything.  The best breaking may
fill its last line with a strut. -/
theorem lines_conserve_items (width : α) (items : List (Instruction α))
    (hmade : ∀ i ∈ items, i.Made) (hw : ∀ i ∈ items, 0 ≤ i.width) :
    Conserves items ((greedyLines width items).map Line.instructions) ∧
      ∀ config justify fonts, ∃ bare, Conserves items bare ∧
        ((breakLines width config justify fonts items).map Line.instructions = bare ∨
          justify = true ∧ FilledFrom width fonts bare
            ((breakLines width config justify fonts items).map Line.instructions)) := by
  have hgreedy : Conserves items ((greedyLines width items).map Line.instructions) :=
    (FrontTrimmed.same items).conserves_greedyLines width hmade hw
  refine ⟨hgreedy, fun config justify fonts => ?_⟩
  by_cases hitems : items = []
  · subst hitems
    exact ⟨[], ⟨[], [], ⟨rfl, by simp, by simp⟩, .nil⟩, Or.inl rfl⟩
  rcases breakLines_cases width config justify fonts hitems with heq | ⟨n, starts, hfound, heq⟩
  · rw [heq]
    exact ⟨_, hgreedy, Or.inl rfl⟩
  · obtain ⟨bs, s, c, hbs, _, rfl⟩ := findBreaks_sound hfound
    have hpieces := conserves_linesOfPieces hmade (flatten_cutAt 0 items (bs.map Break.next))
      (hbs.nil_not_mem_cutAt (hbs.lt_length hitems))
    rw [heq]
    refine ⟨_, hpieces, ?_⟩
    cases justify with
    | false => exact Or.inl rfl
    | true =>
      rcases filledFrom_padLast width fonts (cutAt 0 items (bs.map Break.next)) with hpad | hpad
      · exact Or.inl (congrArg (List.map Line.instructions) hpad)
      · exact Or.inr ⟨rfl, hpad⟩

end

/-- Two words in a column that holds only the shorter one. -/
theorem lines_conserve_words :
    (∀ i ∈ Sample.words, i.Made) ∧ (∀ i ∈ Sample.words, 0 ≤ i.width) ∧
      Conserves Sample.words ((greedyLines 12 Sample.words).map Line.instructions) ∧
      ∃ bare, Conserves Sample.words bare ∧
        ((breakLines 12 .standard true Sample.fonts Sample.words).map Line.instructions = bare ∨
          FilledFrom 12 Sample.fonts bare
            ((breakLines 12 .standard true Sample.fonts Sample.words).map Line.instructions)) := by
  have h := lines_conserve_items 12 Sample.words Sample.words_made Sample.words_nonneg
  refine ⟨Sample.words_made, Sample.words_nonneg, h.1, ?_⟩
  obtain ⟨bare, hbare, heq | ⟨_, hfilled⟩⟩ := h.2 .standard true Sample.fonts
  · exact ⟨bare, hbare, Or.inl heq⟩
  · exact ⟨bare, hbare, Or.inr hfilled⟩

end Paragraph
end Galley
