import Galley.Proofs.Paragraph.Trim
import Galley.Paragraph.Greedy

/-
What taking one line from a list of instructions does.

Filling a line is a run of steps, each of which takes the next instruction onto the line or drops
it, and ends in one of five ways.  `greedyLine_run` says so once; what a line keeps to is proved
of one step (`FillStep`) and of the ends (`FillEnd`), and holds of every line by induction on the
run.  Closing a line after white space has its own three ends (`Closed`).
-/

namespace Galley
namespace Paragraph

open Source

variable {α : Type} [Scalar α]

/-! ## Closing a line after white space -/

/-- What goes by while a line that has ended waits for what comes next. -/
def Instruction.Passes (i : Instruction α) : Prop :=
  i.isForcedBreak = false ∧ (i.discardable = true ∨ i.isClosing = true)

/-- `Closed line items closed rest`: a line that holds `line` is closed before `items`, as
`closed`, and leaves `rest`. -/
inductive Closed (line : List (Instruction α)) :
    List (Instruction α) → Line α → List (Instruction α) → Prop where
  | atEnd {passed : List (Instruction α)} (hp : ∀ i ∈ passed, i.Passes) :
      Closed line passed (.ofInstructions (line ++ solidPart passed) true) []
  | atBreak {passed rest : List (Instruction α)} {i : Instruction α}
      (hp : ∀ i ∈ passed, i.Passes) (hi : i.isForcedBreak = true) :
      Closed line (passed ++ i :: rest)
        (.ofInstructions (line ++ solidPart passed ++ [i]) true) rest
  | atOther {passed rest : List (Instruction α)} {i : Instruction α}
      (hp : ∀ i ∈ passed, i.Passes) (hf : i.isForcedBreak = false)
      (hd : i.discardable = false) (hc : i.isClosing = false) :
      Closed line (passed ++ i :: rest) (.ofInstructions (line ++ solidPart passed) false)
        (i :: rest)

namespace Closed

variable {line items rest : List (Instruction α)} {i : Instruction α} {closed : Line α}

theorem ofNil (line : List (Instruction α)) : Closed line [] (.ofInstructions line true) [] := by
  have h : Closed line [] (.ofInstructions (line ++ solidPart []) true) [] := .atEnd (by simp)
  simpa [solidPart] using h

theorem ofBreak (line rest : List (Instruction α)) (hf : i.isForcedBreak = true) :
    Closed line (i :: rest) (.ofInstructions (line ++ [i]) true) rest := by
  have h : Closed line ([] ++ i :: rest) (.ofInstructions (line ++ solidPart [] ++ [i]) true)
      rest := .atBreak (by simp) hf
  simpa [solidPart] using h

theorem ofOther (line rest : List (Instruction α)) (hf : i.isForcedBreak = false)
    (hd : i.discardable = false) (hc : i.isClosing = false) :
    Closed line (i :: rest) (.ofInstructions line false) (i :: rest) := by
  have h : Closed line ([] ++ i :: rest) (.ofInstructions (line ++ solidPart []) false)
      (i :: rest) := .atOther (by simp) hf hd hc
  simpa [solidPart] using h

theorem skip (hf : i.isForcedBreak = false) (hd : i.discardable = true)
    (h : Closed line items closed rest) : Closed line (i :: items) closed rest := by
  have hpass {passed : List (Instruction α)} (hp : ∀ j ∈ passed, j.Passes) :
      ∀ j ∈ i :: passed, j.Passes := by
    intro j hj
    rcases List.mem_cons.1 hj with rfl | hj
    · exact ⟨hf, Or.inl hd⟩
    · exact hp j hj
  have hsolid (passed : List (Instruction α)) : solidPart passed = solidPart (i :: passed) := by
    simp [solidPart, hd]
  cases h with
  | atEnd hp => rw [hsolid]; exact .atEnd (hpass hp)
  | atBreak hp hi => rw [hsolid]; exact .atBreak (hpass hp) hi
  | atOther hp hf hd hc => rw [hsolid]; exact .atOther (hpass hp) hf hd hc

theorem keep (hf : i.isForcedBreak = false) (hd : i.discardable = false)
    (hc : i.isClosing = true) (h : Closed (line ++ [i]) items closed rest) :
    Closed line (i :: items) closed rest := by
  have hpass {passed : List (Instruction α)} (hp : ∀ j ∈ passed, j.Passes) :
      ∀ j ∈ i :: passed, j.Passes := by
    intro j hj
    rcases List.mem_cons.1 hj with rfl | hj
    · exact ⟨hf, Or.inr hc⟩
    · exact hp j hj
  have hsolid (passed : List (Instruction α)) :
      line ++ [i] ++ solidPart passed = line ++ solidPart (i :: passed) := by
    simp [solidPart, hd]
  cases h with
  | atEnd hp => rw [hsolid]; exact .atEnd (hpass hp)
  | atBreak hp hi => rw [hsolid]; exact .atBreak (hpass hp) hi
  | atOther hp hf hd hc => rw [hsolid]; exact .atOther (hpass hp) hf hd hc

end Closed

theorem closeAfterSpace_nil (line : List (Instruction α)) :
    closeAfterSpace line ([] : List (Instruction α)) = (.ok (.ofInstructions line true), []) := by
  rw [closeAfterSpace]
  rfl

theorem closeAfterSpace_cons (line : List (Instruction α)) (i : Instruction α)
    (items : List (Instruction α)) :
    closeAfterSpace line (i :: items) =
      if i.isForcedBreak then (.ok (.ofInstructions (line ++ [i]) true), items)
      else if i.discardable then closeAfterSpace line items
      else if i.isClosing then closeAfterSpace (line ++ [i]) items
      else (.ok (.ofInstructions line false), i :: items) := by
  rw [closeAfterSpace]
  cases hk : i.kind <;> simp [next, giveBack, Instruction.isClosing, hk]

theorem closeAfterSpace_closed (line items : List (Instruction α)) :
    ∃ closed rest, closeAfterSpace line items = (.ok closed, rest) ∧
      Closed line items closed rest := by
  induction items generalizing line with
  | nil => exact ⟨_, _, closeAfterSpace_nil line, .ofNil line⟩
  | cons i items ih =>
    rw [closeAfterSpace_cons]
    cases hf : i.isForcedBreak with
    | true =>
      exact ⟨_, _, if_pos rfl, .ofBreak line items hf⟩
    | false =>
      rw [if_neg (by decide)]
      cases hd : i.discardable with
      | true =>
        obtain ⟨closed, rest, hclose, h⟩ := ih line
        exact ⟨closed, rest, by rw [if_pos rfl, hclose], h.skip hf hd⟩
      | false =>
        rw [if_neg (by decide)]
        cases hc : i.isClosing with
        | true =>
          obtain ⟨closed, rest, hclose, h⟩ := ih (line ++ [i])
          exact ⟨closed, rest, by rw [if_pos rfl, hclose], h.keep hf hd hc⟩
        | false =>
          exact ⟨_, _, if_neg (by decide), .ofOther line items hf hd hc⟩

/-! ## Filling a line -/

/-- Where the filling of a line stands: what it holds, how wide that is, where it would be cut,
and what is still to come. -/
structure Filling (α : Type) where
  line : List (Instruction α)
  filled : α
  cut : Option Nat
  rest : List (Instruction α)

namespace Filling

def start (items : List (Instruction α)) : Filling α :=
  { line := [], filled := 0, cut := none, rest := items }

end Filling

/-- One instruction is taken onto the line, or dropped in front of it. -/
inductive FillStep (width : α) : Filling α → Filling α → Prop where
  | take {line rest : List (Instruction α)} {filled : α} {cut : Option Nat} {i : Instruction α}
      (hf : i.isForcedBreak = false) (ho : Overflows width filled i → cut = none)
      (hd : i.discardable = true → ¬ width + Scalar.epsilon < filled + i.width) :
      FillStep width ⟨line, filled, cut, i :: rest⟩
        ⟨line ++ [i], filled + i.width, cutAfter i (line.length + 1) cut, rest⟩
  | drop {line rest : List (Instruction α)} {filled : α} {cut : Option Nat} {i : Instruction α}
      (hf : i.isForcedBreak = false) (hd : i.discardable = true)
      (hw : width + Scalar.epsilon < filled + i.width) (hz : (filled == 0) = true) :
      FillStep width ⟨line, filled, cut, i :: rest⟩ ⟨line, filled, cut, rest⟩

/-- `FillEnd width f made rest`: the filling ends at `f`, with the line that is made, if there is
one, and leaves `rest`. -/
inductive FillEnd (width : α) :
    Filling α → Option (Line α) → List (Instruction α) → Prop where
  | nothing {filled : α} {cut : Option Nat} : FillEnd width ⟨[], filled, cut, []⟩ none []
  | atEnd {line : List (Instruction α)} {filled : α} {cut : Option Nat} (hl : line ≠ []) :
      FillEnd width ⟨line, filled, cut, []⟩ (some (.ofInstructions line true)) []
  | atBreak {line rest : List (Instruction α)} {filled : α} {cut : Option Nat}
      {i : Instruction α} (hf : i.isForcedBreak = true) :
      FillEnd width ⟨line, filled, cut, i :: rest⟩ (some (.ofInstructions (line ++ [i]) true))
        rest
  | atCut {line rest : List (Instruction α)} {filled : α} {cut : Nat} {i : Instruction α}
      (hf : i.isForcedBreak = false) (ho : Overflows width filled i) :
      FillEnd width ⟨line, filled, some cut, i :: rest⟩
        (some (.ofInstructions (line.take cut) false)) (line.drop cut ++ i :: rest)
  | afterSpace {line items rest : List (Instruction α)} {filled : α} {cut : Option Nat}
      {i : Instruction α} {closed : Line α} (hf : i.isForcedBreak = false)
      (hd : i.discardable = true) (hw : width + Scalar.epsilon < filled + i.width)
      (hz : (filled == 0) = false) (hc : Closed line items closed rest) :
      FillEnd width ⟨line, filled, cut, i :: items⟩ (some closed) rest

/-- A run of steps, to the end of the line. -/
def FillRun (width : α) (f : Filling α) (made : Option (Line α)) (rest : List (Instruction α)) :
    Prop :=
  ∃ g, Relation.ReflTransGen (FillStep width) f g ∧ FillEnd width g made rest

/-- What each step keeps, a run of steps keeps. -/
theorem keep_of_fillSteps {width : α} {P : Filling α → Prop}
    (hstep : ∀ f g, FillStep width f g → P f → P g) {f g : Filling α}
    (hsteps : Relation.ReflTransGen (FillStep width) f g) (hf : P f) : P g := by
  induction hsteps with
  | refl => exact hf
  | @tail g h _ hs ih => exact hstep g h hs ih

theorem FillRun.head {width : α} {f g : Filling α} {made : Option (Line α)}
    {rest : List (Instruction α)} (hs : FillStep width f g) (hr : FillRun width g made rest) :
    FillRun width f made rest := by
  obtain ⟨last, hsteps, hend⟩ := hr
  exact ⟨last, hsteps.head hs, hend⟩

omit [Scalar α] in
theorem giveBackAll_list (items s : List (Instruction α)) : giveBackAll items s = items ++ s := by
  induction items with
  | nil => rfl
  | cons i items ih => exact congrArg (i :: ·) ih

theorem fillLine_nil (width : α) (line : List (Instruction α)) (filled : α) (cut : Option Nat) :
    fillLine width line filled cut ([] : List (Instruction α)) =
      (.ok (if line.isEmpty then none else some (.ofInstructions line true)), []) := by
  rw [fillLine]
  rfl

theorem fillLine_run_space {width : α} {line items : List (Instruction α)} {filled : α}
    {cut : Option Nat} {i : Instruction α} (hf : i.isForcedBreak = false)
    (hd : i.discardable = true) (hw : width + Scalar.epsilon < filled + i.width)
    (ih : ∃ made rest, fillLine width line filled cut items = (.ok made, rest) ∧
      FillRun width ⟨line, filled, cut, items⟩ made rest) :
    ∃ made rest,
      (if (filled == 0) = true then fillLine width line filled cut items
        else ((closeAfterSpace line items).1.map some, (closeAfterSpace line items).2)) =
          (.ok made, rest) ∧
      FillRun width ⟨line, filled, cut, i :: items⟩ made rest := by
  cases hz : filled == 0 with
  | true =>
    obtain ⟨made, rest, hfill, hrun⟩ := ih
    exact ⟨made, rest, by rw [if_pos rfl, hfill], hrun.head (.drop hf hd hw hz)⟩
  | false =>
    obtain ⟨closed, rest, hclose, hc⟩ := closeAfterSpace_closed line items
    refine ⟨some closed, rest, ?_, _, .refl, .afterSpace hf hd hw hz hc⟩
    rw [if_neg (by decide), hclose]
    rfl

theorem fillLine_run (width : α) (f : Filling α) :
    ∃ made rest, fillLine width f.line f.filled f.cut f.rest = (.ok made, rest) ∧
      FillRun width f made rest := by
  obtain ⟨line, filled, cut, items⟩ := f
  induction items generalizing line filled cut with
  | nil =>
    refine ⟨_, _, fillLine_nil width line filled cut, ⟨_, .refl, ?_⟩⟩
    cases line with
    | nil => exact .nothing
    | cons i line => exact .atEnd (by simp)
  | cons i items ih =>
    rw [fillLine]
    simp only [next]
    cases hf : i.isForcedBreak with
    | true => exact ⟨_, _, if_pos rfl, _, .refl, .atBreak hf⟩
    | false =>
      rw [if_neg (by decide)]
      split
      · next cut hover =>
        have ho : Overflows width filled i := by simpa [Overflows] using hover
        refine ⟨_, _, rfl, _, .refl, ?_⟩
        rw [giveBackAll_list, List.append_assoc]
        exact .atCut hf ho
      · next cut _ _ hfits =>
        have ho : Overflows width filled i → cut = none := by
          intro ho
          cases cut with
          | none => rfl
          | some c => exact absurd rfl (hfits c (by simpa [Overflows] using ho))
        by_cases hspace :
            (i.discardable && decide (width + Scalar.epsilon < filled + i.width)) = true
        · rw [if_pos hspace]
          rw [Bool.and_eq_true, decide_eq_true_eq] at hspace
          exact fillLine_run_space hf hspace.1 hspace.2 (ih line filled cut)
        · rw [if_neg hspace]
          obtain ⟨made, rest, hfill, hrun⟩ :=
            ih (line ++ [i]) (filled + i.width) (cutAfter i (line.length + 1) cut)
          refine ⟨made, rest, hfill, hrun.head (.take hf ho ?_)⟩
          intro hd hwide
          exact hspace (by simp [hd, hwide])

/-- Taking a line from a list runs through the steps and never fails. -/
theorem greedyLine_run (width : α) (items : List (Instruction α)) :
    ∃ made rest, greedyLine width items = (.ok made, rest) ∧
      FillRun width (.start items) made rest :=
  fillLine_run width (.start items)

theorem FillRun.of_greedyLine {width : α} {items rest : List (Instruction α)}
    {made : Option (Line α)} (h : greedyLine width items = (.ok made, rest)) :
    FillRun width (.start items) made rest := by
  obtain ⟨made', rest', h', hrun⟩ := greedyLine_run width items
  rw [h] at h'
  cases h'
  exact hrun

/-! ## Where the line would be cut -/

/-- What filling a line keeps to: the line would be cut behind the last break opportunity on it. -/
structure CutBehind (f : Filling α) : Prop where
  carried : ∀ j ∈ f.line.drop (f.cut.getD 0), j.breakOpportunity = false
  opportunity : ∀ c, f.cut = some c → ∃ j ∈ f.line, j.breakOpportunity = true

theorem CutBehind.step {width : α} {f g : Filling α} (hs : FillStep width f g)
    (h : CutBehind f) : CutBehind g := by
  cases hs with
  | @take line rest filled cut i _ _ _ =>
    cases hb : i.breakOpportunity with
    | true =>
      have hcut : cutAfter i (line.length + 1) cut = some (line.length + 1) := if_pos hb
      refine ⟨?_, fun c _ => ⟨i, by simp, hb⟩⟩
      intro j hj
      simp [hcut] at hj
    | false =>
      have hcut : cutAfter i (line.length + 1) cut = cut := if_neg (by rw [hb]; decide)
      refine ⟨?_, fun c hc => ?_⟩
      · intro j hj
        dsimp only at hj
        rw [hcut, List.drop_append] at hj
        rcases List.mem_append.1 hj with hj | hj
        · exact h.carried j hj
        · rw [List.mem_singleton.1 (List.mem_of_mem_drop hj)]
          exact hb
      · obtain ⟨j, hj, hjb⟩ := h.opportunity c (hcut.symm.trans hc)
        exact ⟨j, List.mem_append_left _ hj, hjb⟩
  | drop => exact ⟨h.carried, h.opportunity⟩

theorem CutBehind.run {width : α} {f g : Filling α}
    (hsteps : Relation.ReflTransGen (FillStep width) f g) (h : CutBehind f) : CutBehind g :=
  keep_of_fillSteps (fun _ _ hs hf => hf.step hs) hsteps h

theorem cutBehind_start (items : List (Instruction α)) : CutBehind (.start items) where
  carried := by
    intro j hj
    cases hj
  opportunity := by
    intro c hc
    cases hc

/-! ## What is left comes from what was there -/

theorem FillStep.subset {width : α} {f g : Filling α} (h : FillStep width f g) :
    g.line ++ g.rest ⊆ f.line ++ f.rest := by
  intro j hj
  cases h with
  | take => simpa using hj
  | drop =>
    rw [List.mem_append] at hj ⊢
    exact hj.imp id (List.mem_cons_of_mem _)

theorem Closed.subset {line items rest : List (Instruction α)} {closed : Line α}
    (h : Closed line items closed rest) : rest ⊆ items := by
  intro j hj
  cases h with
  | atEnd => cases hj
  | atBreak => exact List.mem_append_right _ (List.mem_cons_of_mem _ hj)
  | atOther => exact List.mem_append_right _ hj

theorem FillEnd.subset {width : α} {f : Filling α} {made : Option (Line α)}
    {rest : List (Instruction α)} (h : FillEnd width f made rest) : rest ⊆ f.line ++ f.rest := by
  intro j hj
  cases h with
  | nothing => cases hj
  | atEnd => cases hj
  | atBreak => exact List.mem_append_right _ (List.mem_cons_of_mem _ hj)
  | atCut =>
    rw [List.mem_append] at hj ⊢
    exact hj.imp List.mem_of_mem_drop id
  | afterSpace _ _ _ _ hc => exact List.mem_append_right _ (List.mem_cons_of_mem _ (hc.subset hj))

theorem subset_of_fillSteps {width : α} {f g : Filling α}
    (hsteps : Relation.ReflTransGen (FillStep width) f g) :
    g.line ++ g.rest ⊆ f.line ++ f.rest := by
  refine keep_of_fillSteps (P := fun g => g.line ++ g.rest ⊆ f.line ++ f.rest) ?_ hsteps
    (List.Subset.refl _)
  intro g h hs hg
  exact List.Subset.trans hs.subset hg

theorem greedyLine_subset {width : α} {items rest : List (Instruction α)}
    {made : Option (Line α)} (h : greedyLine width items = (.ok made, rest)) : rest ⊆ items := by
  obtain ⟨f, hsteps, hend⟩ := FillRun.of_greedyLine h
  exact List.Subset.trans hend.subset (subset_of_fillSteps hsteps)

/-! ## What the line is made of -/

section

variable [Scalar.KeepsSign α]

theorem blank_of_passes {passed : List (Instruction α)} (hmade : ∀ i ∈ passed, i.Made)
    (hp : ∀ i ∈ passed, i.Passes) : Blank passed := by
  refine blank_of_marker hmade fun i hi => ?_
  rcases (hp i hi).2 with hd | hc
  · exact Or.inl hd
  · exact Or.inr (Instruction.isMarker_of_isClosing hc)

theorem blank_forcedBreak {i : Instruction α} (hmade : i.Made) (hf : i.isForcedBreak = true) :
    Blank [i] :=
  Blank.cons (Instruction.not_isVisible_of_marker hmade (Instruction.isMarker_of_isForcedBreak hf))
    (by simp [Blank])

omit [Scalar.KeepsSign α] in
theorem solidPart_forcedBreak {i : Instruction α} (hmade : i.Made) (hf : i.isForcedBreak = true) :
    solidPart [i] = [i] := by
  simp [solidPart, (hmade.marker (Instruction.isMarker_of_isForcedBreak hf)).2]

omit [Scalar α] [Scalar.KeepsSign α] in
theorem solidPart_append (a b : List (Instruction α)) :
    solidPart (a ++ b) = solidPart a ++ solidPart b := List.filter_append a b

/-- Closing a line uses up something blank, and puts what is not white space of it onto the
line. -/
theorem Closed.split {line items rest : List (Instruction α)} {closed : Line α}
    (h : Closed line items closed rest) (hmade : ∀ i ∈ items, i.Made) :
    ∃ passed, items = passed ++ rest ∧ Blank passed ∧
      closed.instructions = Line.trim (line ++ solidPart passed) := by
  cases h with
  | atEnd hp => exact ⟨items, by simp, blank_of_passes hmade hp, rfl⟩
  | @atBreak passed _ i hp hi =>
    have hpassed : ∀ j ∈ passed, j.Made := fun j hj => hmade j (List.mem_append_left _ hj)
    have hbreak : i.Made := hmade i (by simp)
    refine ⟨passed ++ [i], by simp, (blank_of_passes hpassed hp).append
      (blank_forcedBreak hbreak hi), ?_⟩
    rw [solidPart_append, solidPart_forcedBreak hbreak hi, ← List.append_assoc]
    rfl
  | @atOther passed _ i hp hf hd hc =>
    have hpassed : ∀ j ∈ passed, j.Made := fun j hj => hmade j (List.mem_append_left _ hj)
    exact ⟨passed, rfl, blank_of_passes hpassed hp, rfl⟩

/-- A line that is made either takes in something blank at its end or is cut. -/
theorem FillEnd.line_cases {width : α} {f : Filling α} {l : Line α} {rest : List (Instruction α)}
    (h : FillEnd width f (some l) rest) (hmade : ∀ i ∈ f.rest, i.Made) :
    (∃ passed, f.rest = passed ++ rest ∧ Blank passed ∧ f.line ++ passed ≠ [] ∧
        l.instructions = Line.trim (f.line ++ solidPart passed)) ∨
      ∃ c, f.cut = some c ∧ rest = f.line.drop c ++ f.rest ∧
        l.instructions = Line.trim (f.line.take c) := by
  cases h with
  | atEnd hl => exact Or.inl ⟨[], rfl, by simp [Blank], by simpa using hl, by simp [solidPart]; rfl⟩
  | @atBreak line _ _ _ i hf =>
    have hbreak : i.Made := hmade i (by simp)
    refine Or.inl ⟨[i], rfl, blank_forcedBreak hbreak hf, by simp, ?_⟩
    rw [solidPart_forcedBreak hbreak hf]
    rfl
  | atCut hf ho => exact Or.inr ⟨_, rfl, rfl, rfl⟩
  | @afterSpace line items _ _ _ i closed hf hd hw hz hc =>
    obtain ⟨passed, hitems, hblank, hline⟩ :=
      hc.split fun j hj => hmade j (List.mem_cons_of_mem i hj)
    have hspace : i.isVisible = false := Instruction.not_isVisible_of_discardable hd
    refine Or.inl ⟨i :: passed, by simp [hitems], Blank.cons hspace hblank, by simp, ?_⟩
    rw [hline]
    simp [solidPart, hd]

end

end Paragraph
end Galley
