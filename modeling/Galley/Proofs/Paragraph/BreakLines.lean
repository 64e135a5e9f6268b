import Galley.Proofs.Paragraph.GreedyLine
import Galley.Proofs.Paragraph.Search

/-
From the breaks of a paragraph to its lines.

A paragraph is broken greedily or cut where the search says, and its last line may be padded.
-/

namespace Galley
namespace Paragraph

variable {α : Type} [Scalar α]

/-! ## Greedy lines -/

theorem greedyLines_cases (width : α) (items : List (Instruction α)) :
    (∃ rest, greedyLine width items = (.ok none, rest) ∧ greedyLines width items = []) ∨
      ∃ l rest, greedyLine width items = (.ok (some l), rest) ∧
        rest.length < items.length ∧ greedyLines width items = l :: greedyLines width rest := by
  obtain ⟨made, rest, h, _⟩ := greedyLine_run width items
  cases made with
  | none =>
    refine Or.inl ⟨rest, h, ?_⟩
    rw [greedyLines]
    split
    · next heq => rw [h] at heq; cases heq
    · rfl
  | some l =>
    refine Or.inr ⟨l, rest, h, remaining_greedyLine_lt h, ?_⟩
    rw [greedyLines]
    split
    · next heq =>
      rw [h] at heq
      cases heq
      rfl
    · next hne => exact absurd h (hne l rest)

/-! ## Pieces of a paragraph -/

omit [Scalar α] in
theorem flatten_cutAt (place : Nat) (items : List (Instruction α)) (starts : List Nat) :
    (cutAt place items starts).flatten = items := by
  induction starts generalizing place items with
  | nil => simp [cutAt]
  | cons start starts ih => rw [cutAt, List.flatten_cons, ih, List.take_append_drop]

omit [Scalar α] in
theorem cutAt_ne_nil (place : Nat) (items : List (Instruction α)) (starts : List Nat) :
    cutAt place items starts ≠ [] := by
  cases starts with
  | nil => simp [cutAt]
  | cons start starts => simp [cutAt]

theorem instructions_linesOfPieces (pieces : List (List (Instruction α))) :
    (linesOfPieces pieces).map Line.instructions = pieces.map Line.trim := by
  induction pieces with
  | nil => rfl
  | cons piece pieces ih =>
    cases pieces with
    | nil => rfl
    | cons next pieces =>
      rw [linesOfPieces, List.map_cons, ih]
      · rfl
      · simp

theorem linesOfPieces_concat (pieces : List (List (Instruction α)))
    (last : List (Instruction α)) :
    linesOfPieces (pieces ++ [last]) =
      pieces.map (fun piece => Line.ofInstructions piece false) ++ [.ofInstructions last true] := by
  induction pieces with
  | nil => rfl
  | cons piece pieces ih =>
    rw [List.cons_append, linesOfPieces, ih]
    · rfl
    · simp

theorem mem_linesOfPieces {pieces : List (List (Instruction α))} {l : Line α}
    (h : l ∈ linesOfPieces pieces) : ∃ piece ∈ pieces, ∃ hard, l = .ofInstructions piece hard := by
  induction pieces with
  | nil => simp [linesOfPieces] at h
  | cons piece pieces ih =>
    cases pieces with
    | nil =>
      obtain rfl : l = .ofInstructions piece true := by simpa [linesOfPieces] using h
      exact ⟨piece, List.mem_cons_self, true, rfl⟩
    | cons next pieces =>
      rw [linesOfPieces, List.mem_cons] at h
      · rcases h with rfl | h
        · exact ⟨piece, List.mem_cons_self, false, rfl⟩
        · obtain ⟨p, hp, hard, hl⟩ := ih h
          exact ⟨p, List.mem_cons_of_mem piece hp, hard, hl⟩
      · simp

/-- Each piece of a course is what lies between a place and a break from it, and the last is what
is left. -/
theorem Course.mem_cutAt {limits : Limits α} {items : List (Instruction α)} {s t : Nat}
    {bs : List (Break α)} (h : Course limits items s bs t) {piece : List (Instruction α)}
    (hp : piece ∈ cutAt s (items.drop s) (bs.map Break.next)) :
    (∃ u b, u < items.length ∧ b ∈ breaksFrom limits items u ∧
      piece = (items.drop u).take (b.next - u)) ∨ piece = items.drop t := by
  induction h with
  | nil s => exact Or.inr (by simpa [cutAt] using hp)
  | @cons s t b bs hb hn h ih =>
    have hlt := lt_next_of_mem hb
    rw [List.map_cons, cutAt, List.mem_cons, List.drop_drop,
      show s + (b.next - s) = b.next by omega] at hp
    rcases hp with rfl | hp
    · exact Or.inl ⟨s, b, by omega, hb, rfl⟩
    · exact ih hp

/-- Cut at the breaks of a course, a list falls into a piece for each break and what is left. -/
theorem Course.cutAt_eq {limits : Limits α} {items : List (Instruction α)} {s t : Nat}
    {bs : List (Break α)} (h : Course limits items s bs t) :
    ∃ pieces, cutAt s (items.drop s) (bs.map Break.next) = pieces ++ [items.drop t] ∧
      List.Forall₂ (fun piece b => ∃ u, b ∈ breaksFrom limits items u ∧
        piece = (items.drop u).take (b.next - u)) pieces bs := by
  induction h with
  | nil s => exact ⟨[], rfl, .nil⟩
  | @cons s t b bs hb hn _ ih =>
    obtain ⟨pieces, hcut, hpieces⟩ := ih
    have hlt := lt_next_of_mem hb
    refine ⟨(items.drop s).take (b.next - s) :: pieces, ?_, .cons ⟨s, hb, rfl⟩ hpieces⟩
    rw [List.map_cons, cutAt, List.drop_drop, show s + (b.next - s) = b.next by omega, hcut]
    rfl

theorem Course.nil_not_mem_cutAt {limits : Limits α} {items : List (Instruction α)} {s t : Nat}
    {bs : List (Break α)} (h : Course limits items s bs t) (ht : t < items.length) :
    [] ∉ cutAt s (items.drop s) (bs.map Break.next) := by
  intro hnil
  rcases h.mem_cutAt hnil with ⟨u, b, hu, hb, hpiece⟩ | hpiece
  · have hlen := congrArg List.length hpiece
    have hlt := lt_next_of_mem hb
    simp only [List.length_nil, List.length_take, List.length_drop] at hlen
    omega
  · have hlen := congrArg List.length hpiece
    simp only [List.length_nil, List.length_drop] at hlen
    omega

/-! ## The lines of a paragraph -/

/-- What the lines of an attempt are held against. -/
def OptimalConfig.limitsAt (config : OptimalConfig α) (width : α) (attempt : Nat) : Limits α :=
  { width := width
    tolerance := config.tolerance width attempt
    penalty := config.overflowPenalty }

theorem attemptBreaks_some {width : α} {config : OptimalConfig α} {items : List (Instruction α)}
    {left attempt : Nat} {starts : List Nat}
    (h : attemptBreaks width config items left attempt = some starts) :
    ∃ n, findBreaks (config.limitsAt width n) items = some starts := by
  induction left generalizing attempt with
  | zero => simp [attemptBreaks] at h
  | succ left ih =>
    rw [attemptBreaks] at h
    split at h
    · next found hfound =>
      cases h
      exact ⟨attempt, hfound⟩
    · exact ih h

theorem padLast_cons {width : α} {fonts : Font.FontService α} (line : Line α)
    {lines : List (Line α)} (h : lines ≠ []) :
    padLast width fonts (line :: lines) = line :: padLast width fonts lines := by
  rw [padLast]
  simpa using h

theorem padLast_cases (width : α) (fonts : Font.FontService α) (lines : List (Line α)) :
    padLast width fonts lines = lines ∨
      ∃ init last state, lines = init ++ [last] ∧ 0 < width - last.width ∧
        padLast width fonts lines = init ++ [.measured
          (last.instructions ++ [.strut (width - last.width) state fonts])
          last.hardBreak last.pageBreak] := by
  induction lines with
  | nil => exact Or.inl rfl
  | cons line lines ih =>
    cases lines with
    | nil =>
      unfold padLast
      split
      · next i hi =>
        by_cases hroom : 0 < width - line.width
        · refine Or.inr ⟨[], line, i.state, rfl, hroom, ?_⟩
          simp [Line.padTo, hroom]
        · exact Or.inl (by simp [Line.padTo, hroom])
      · exact Or.inl rfl
    | cons next lines =>
      have hpad : padLast width fonts (line :: next :: lines) =
          line :: padLast width fonts (next :: lines) := padLast_cons line (by simp)
      rcases ih with heq | ⟨init, last, state, hlines, hroom, heq⟩
      · exact Or.inl (by rw [hpad, heq])
      · refine Or.inr ⟨line :: init, last, state, by rw [hlines]; rfl, hroom, ?_⟩
        rw [hpad, heq]
        rfl

theorem padLast_concat (width : α) (fonts : Font.FontService α) (init : List (Line α))
    (last : Line α) :
    padLast width fonts (init ++ [last]) = init ++ padLast width fonts [last] := by
  induction init with
  | nil => rfl
  | cons line init ih => rw [List.cons_append, padLast_cons line (by simp), ih, List.cons_append]

/-- An attempt on nothing finds nothing. -/
theorem attemptBreaks_nil (width : α) (config : OptimalConfig α) (left attempt : Nat) :
    attemptBreaks width config [] left attempt = none := by
  induction left generalizing attempt with
  | zero => rfl
  | succ left ih =>
    rw [attemptBreaks]
    exact ih (attempt + 1)

/-- What an attempt that finds breaks makes of a paragraph. -/
theorem breakLines_of_attempt {width : α} {config : OptimalConfig α} {justify : Bool}
    {fonts : Font.FontService α} {items : List (Instruction α)} {starts : List Nat}
    (h : attemptBreaks width config items (config.maxRetries + 1) 0 = some starts) :
    breakLines width config justify fonts items =
      if justify then padLast width fonts (linesOfPieces (cutAt 0 items (starts.drop 1)))
      else linesOfPieces (cutAt 0 items (starts.drop 1)) := by
  have hitems : items ≠ [] := by
    rintro rfl
    rw [attemptBreaks_nil] at h
    cases h
  unfold breakLines
  rw [if_neg (by simpa using hitems), h]

/-- A paragraph is broken greedily, or at the starts that an attempt has found. -/
theorem breakLines_cases (width : α) (config : OptimalConfig α) (justify : Bool)
    (fonts : Font.FontService α) {items : List (Instruction α)} (hitems : items ≠ []) :
    breakLines width config justify fonts items = greedyLines width items ∨
      ∃ n starts, findBreaks (config.limitsAt width n) items = some starts ∧
        breakLines width config justify fonts items =
          if justify then padLast width fonts (linesOfPieces (cutAt 0 items (starts.drop 1)))
          else linesOfPieces (cutAt 0 items (starts.drop 1)) := by
  unfold breakLines
  rw [if_neg (by simpa using hitems)]
  split
  · exact Or.inl rfl
  · next starts hstarts =>
    obtain ⟨n, hfound⟩ := attemptBreaks_some hstarts
    exact Or.inr ⟨n, starts, hfound, rfl⟩

/-! ## What stands on the lines -/

omit [Scalar α] in
theorem trim_subset (items : List (Instruction α)) : Line.trim items ⊆ items := by
  obtain ⟨body, tail, hitems, htrim, -⟩ := trim_split items
  have hsolid : solidPart tail ⊆ tail := fun i hi => List.mem_of_mem_filter hi
  intro i hi
  rw [htrim, List.mem_append] at hi
  rw [hitems, List.mem_append]
  exact hi.imp_right fun hi => hsolid hi

theorem Closed.instructions_subset {line items rest : List (Instruction α)} {closed : Line α}
    (h : Closed line items closed rest) : closed.instructions ⊆ line ++ items := by
  have hsolid (passed : List (Instruction α)) : solidPart passed ⊆ passed :=
    fun i hi => List.mem_of_mem_filter hi
  intro i hi
  cases h with
  | atEnd =>
    have hi := trim_subset _ hi
    rw [List.mem_append] at hi ⊢
    exact hi.imp_right fun hi => hsolid _ hi
  | atBreak =>
    have hi := trim_subset _ hi
    simp only [List.mem_append, List.mem_cons, List.not_mem_nil, or_false] at hi ⊢
    rcases hi with (hi | hi) | hi
    · exact Or.inl hi
    · exact Or.inr (Or.inl (hsolid _ hi))
    · exact Or.inr (Or.inr (Or.inl hi))
  | atOther =>
    have hi := trim_subset _ hi
    rw [List.mem_append] at hi ⊢
    exact hi.imp_right fun hi => List.mem_append_left _ (hsolid _ hi)

theorem FillEnd.instructions_subset {width : α} {f : Filling α} {l : Line α}
    {rest : List (Instruction α)} (h : FillEnd width f (some l) rest) :
    l.instructions ⊆ f.line ++ f.rest := by
  intro i hi
  cases h with
  | atEnd => exact List.mem_append_left _ (trim_subset _ hi)
  | atBreak =>
    have hi := trim_subset _ hi
    simp only [List.mem_append, List.mem_cons, List.not_mem_nil, or_false] at hi ⊢
    exact hi.imp_right Or.inl
  | atCut => exact List.mem_append_left _ (List.mem_of_mem_take (trim_subset _ hi))
  | afterSpace _ _ _ _ hc =>
    have hi := hc.instructions_subset hi
    rw [List.mem_append] at hi ⊢
    exact hi.imp_right fun hi => List.mem_cons_of_mem _ hi

theorem instructions_greedyLine {width : α} {items rest : List (Instruction α)} {l : Line α}
    (h : greedyLine width items = (.ok (some l), rest)) : l.instructions ⊆ items := by
  obtain ⟨f, hsteps, hend⟩ := FillRun.of_greedyLine h
  exact List.Subset.trans hend.instructions_subset (subset_of_fillSteps hsteps)

theorem instructions_greedyLines {width : α} {items : List (Instruction α)} {l : Line α}
    (h : l ∈ greedyLines width items) : l.instructions ⊆ items := by
  induction hlength : items.length using Nat.strong_induction_on generalizing items with
  | _ n ih =>
    rcases greedyLines_cases width items with ⟨rest, -, hlines⟩ | ⟨m, rest, hm, hlt, hlines⟩
    · rw [hlines] at h
      cases h
    · rw [hlines, List.mem_cons] at h
      rcases h with rfl | h
      · exact instructions_greedyLine hm
      · exact List.Subset.trans (ih rest.length (hlength ▸ hlt) h rfl) (greedyLine_subset hm)

theorem instructions_linesOfCuts {place : Nat} {items : List (Instruction α)}
    {starts : List Nat} {l : Line α} (h : l ∈ linesOfPieces (cutAt place items starts)) :
    l.instructions ⊆ items := by
  obtain ⟨piece, hpiece, hard, rfl⟩ := mem_linesOfPieces h
  intro i hi
  rw [← flatten_cutAt place items starts, List.mem_flatten]
  exact ⟨piece, hpiece, trim_subset piece hi⟩

/-- A filled line holds a strut more, in the style of something on the line. -/
theorem instructions_padLast {width : α} {fonts : Font.FontService α} {lines : List (Line α)}
    {l : Line α} (h : l ∈ padLast width fonts lines) {i : Instruction α}
    (hi : i ∈ l.instructions) :
    ∃ m ∈ lines, i ∈ m.instructions ∨
      ∃ j ∈ m.instructions, ∃ room, i = .strut room j.state fonts := by
  induction lines with
  | nil => cases h
  | cons line lines ih =>
    cases lines with
    | cons next lines =>
      rw [padLast_cons line (by simp), List.mem_cons] at h
      rcases h with rfl | h
      · exact ⟨l, List.mem_cons_self, Or.inl hi⟩
      · obtain ⟨m, hm, hfound⟩ := ih h
        exact ⟨m, List.mem_cons_of_mem line hm, hfound⟩
    | nil =>
      refine ⟨line, List.mem_cons_self, ?_⟩
      unfold padLast at h
      split at h
      · next j hj =>
        rw [List.mem_singleton.1 h] at hi
        by_cases hroom : 0 < width - line.width
        · unfold Line.padTo at hi
          rw [if_pos hroom] at hi
          rcases List.mem_append.1 hi with hi | hi
          · exact Or.inl hi
          · exact Or.inr ⟨j, List.mem_of_getLast? hj, _, List.mem_singleton.1 hi⟩
        · unfold Line.padTo at hi
          rw [if_neg hroom] at hi
          exact Or.inl hi
      · rw [List.mem_singleton.1 h] at hi
        exact Or.inl hi

/-- All that stands on the lines of a paragraph comes from it, but for a strut in the style of
something on it. -/
theorem instructions_breakLines {width : α} {config : OptimalConfig α} {justify : Bool}
    {fonts : Font.FontService α} {items : List (Instruction α)} {l : Line α}
    (h : l ∈ breakLines width config justify fonts items) {i : Instruction α}
    (hi : i ∈ l.instructions) :
    i ∈ items ∨ ∃ j ∈ items, ∃ room, i = .strut room j.state fonts := by
  by_cases hitems : items = []
  · subst hitems
    cases h
  · rcases breakLines_cases width config justify fonts hitems with heq | ⟨n, starts, -, heq⟩
    · rw [heq] at h
      exact Or.inl (instructions_greedyLines h hi)
    · rw [heq] at h
      split at h
      · obtain ⟨m, hm, hfound⟩ := instructions_padLast h hi
        have hsubset := instructions_linesOfCuts hm
        refine hfound.imp (fun hi => hsubset hi) ?_
        rintro ⟨j, hj, hstrut⟩
        exact ⟨j, hsubset hj, hstrut⟩
      · exact Or.inl (instructions_linesOfCuts h hi)

/-! ## When there are no lines -/

/-- What is passed over while a line is filled ends no line by force. -/
theorem passed_of_fillSteps {width : α} {items : List (Instruction α)} {f : Filling α}
    (hsteps : Relation.ReflTransGen (FillStep width) (.start items) f) :
    ∃ passed, items = passed ++ f.rest ∧ ∀ i ∈ passed, i.isForcedBreak = false := by
  refine keep_of_fillSteps
    (P := fun f => ∃ passed, items = passed ++ f.rest ∧ ∀ i ∈ passed, i.isForcedBreak = false)
    ?_ hsteps ⟨[], rfl, by simp⟩
  rintro f g hs ⟨passed, hitems, hpassed⟩
  have hnext {i : Instruction α} {rest : List (Instruction α)} (hf : i.isForcedBreak = false)
      (hrest : f.rest = i :: rest) :
      ∃ passed, items = passed ++ rest ∧ ∀ j ∈ passed, j.isForcedBreak = false := by
    refine ⟨passed ++ [i], by rw [hitems, hrest, List.append_assoc]; rfl, ?_⟩
    intro j hj
    rcases List.mem_append.1 hj with hj | hj
    · exact hpassed j hj
    · rw [List.mem_singleton.1 hj, hf]
  cases hs with
  | take hf => exact hnext hf rfl
  | drop hf => exact hnext hf rfl

theorem greedyLine_none {width : α} {items rest : List (Instruction α)}
    (h : greedyLine width items = (.ok none, rest)) :
    rest = [] ∧ ∀ i ∈ items, i.isForcedBreak = false := by
  obtain ⟨f, hsteps, hend⟩ := FillRun.of_greedyLine h
  obtain ⟨passed, hitems, hpassed⟩ := passed_of_fillSteps hsteps
  cases hend with
  | nothing =>
    rw [List.append_nil] at hitems
    rw [hitems]
    exact ⟨rfl, hpassed⟩

/-- A paragraph without lines has no forced break. -/
theorem breakLines_eq_nil {width : α} {config : OptimalConfig α} {justify : Bool}
    {fonts : Font.FontService α} {items : List (Instruction α)}
    (h : breakLines width config justify fonts items = []) :
    ∀ i ∈ items, i.isForcedBreak = false := by
  have hpieces (starts : List Nat) : linesOfPieces (cutAt 0 items starts) ≠ [] := by
    intro hnil
    have hlines := instructions_linesOfPieces (cutAt 0 items starts)
    rw [hnil] at hlines
    exact cutAt_ne_nil 0 items starts (List.map_eq_nil_iff.1 hlines.symm)
  by_cases hitems : items = []
  · subst hitems
    intro i hi
    cases hi
  · rcases breakLines_cases width config justify fonts hitems with heq | ⟨n, starts, -, heq⟩
    · rw [heq] at h
      rcases greedyLines_cases width items with ⟨rest, hnone, -⟩ | ⟨l, rest, -, -, hlines⟩
      · exact (greedyLine_none hnone).2
      · rw [hlines] at h
        cases h
    · rw [heq] at h
      split at h
      · rcases padLast_cases width fonts (linesOfPieces (cutAt 0 items (starts.drop 1))) with
          hpad | ⟨init, last, state, -, -, hpad⟩
        · exact absurd (hpad.symm.trans h) (hpieces _)
        · rw [hpad] at h
          simp at h
      · exact absurd h (hpieces _)

end Paragraph
end Galley
