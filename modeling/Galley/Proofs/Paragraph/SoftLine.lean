import Galley.Proofs.Paragraph.GreedyLine

/-
When a greedy line ends soft.

A soft line is one that the paragraph goes on after, and may be justified.  Something visible comes
before the next forced break then, but for one case: white space has ended the line, and the first
thing behind it that is neither white space nor a closing marker is a thing that shows nothing,
such as an opening marker, with nothing visible between it and the forced break.

Main theorem: `soft_line_shows_iff`.
-/

namespace Galley
namespace Paragraph

variable {α : Type} [Scalar α]

/-- Something visible comes before the next forced break. -/
def showsBeforeBreak (items : List (Instruction α)) : Bool :=
  (items.takeWhile fun i => !i.isForcedBreak).any Instruction.isVisible

theorem showsBeforeBreak_cons {i : Instruction α} (items : List (Instruction α))
    (hf : i.isForcedBreak = false) :
    showsBeforeBreak (i :: items) = (i.isVisible || showsBeforeBreak items) := by
  unfold showsBeforeBreak
  rw [List.takeWhile_cons_of_pos (by rw [hf]; rfl), List.any_cons]

theorem showsBeforeBreak_append {front : List (Instruction α)} (items : List (Instruction α))
    (hf : ∀ j ∈ front, j.isForcedBreak = false) (h : showsBeforeBreak items = true) :
    showsBeforeBreak (front ++ items) = true := by
  induction front with
  | nil => exact h
  | cons i front ih =>
    rw [List.cons_append, showsBeforeBreak_cons _ (hf i List.mem_cons_self),
      ih fun j hj => hf j (List.mem_cons_of_mem i hj), Bool.or_true]

/-- Something stands in front that shows nothing and is neither white space, a closing marker nor a
forced break, and nothing visible follows before the next forced break. -/
inductive Dangling : List (Instruction α) → Prop where
  | mk {i : Instruction α} {more : List (Instruction α)} (hf : i.isForcedBreak = false)
      (hd : i.discardable = false) (hc : i.isClosing = false) (hi : i.isVisible = false)
      (hmore : showsBeforeBreak more = false) : Dangling (i :: more)

/-- White space comes in `items` before `rest`, with nothing between them but white space and
closing markers. -/
def BehindSpace (items rest : List (Instruction α)) : Prop :=
  ∃ before space passed, items = before ++ space :: (passed ++ rest) ∧
    space.discardable = true ∧ ∀ j ∈ passed, j.Passes

/-- What filling a line keeps to: no forced break goes onto the line, and what is to come is the
end of what there was. -/
structure Unbroken (items : List (Instruction α)) (f : Filling α) : Prop where
  line : ∀ j ∈ f.line, j.isForcedBreak = false
  suffix : f.rest <:+ items

theorem Unbroken.step {width : α} {items : List (Instruction α)} {f g : Filling α}
    (hs : FillStep width f g) (h : Unbroken items f) : Unbroken items g := by
  cases hs with
  | @take line rest filled cut i hf _ _ =>
    refine ⟨?_, (List.suffix_cons i rest).trans h.suffix⟩
    intro j hj
    rcases List.mem_append.1 hj with hj | hj
    · exact h.line j hj
    · rw [List.mem_singleton.1 hj]
      exact hf
  | @drop line rest filled cut i _ _ _ _ =>
    exact ⟨h.line, (List.suffix_cons i rest).trans h.suffix⟩

theorem Unbroken.run {width : α} {items : List (Instruction α)} {f g : Filling α}
    (hsteps : Relation.ReflTransGen (FillStep width) f g) (h : Unbroken items f) :
    Unbroken items g :=
  keep_of_fillSteps (fun _ _ hs hf => hf.step hs) hsteps h

theorem unbroken_start (items : List (Instruction α)) : Unbroken items (.start items) where
  line := by
    intro j hj
    cases hj
  suffix := List.suffix_refl items

/-- Where a soft line ends: before something visible, or behind white space and before something
that does not go by. -/
theorem FillEnd.soft_cases {width : α} {items rest : List (Instruction α)} {f : Filling α}
    {l : Line α} (h : FillEnd width f (some l) rest) (hf : Unbroken items f)
    (hsoft : l.hardBreak = false) :
    showsBeforeBreak rest = true ∨
      BehindSpace items rest ∧ ∃ i more, rest = i :: more ∧ i.isForcedBreak = false ∧
        i.discardable = false ∧ i.isClosing = false := by
  cases h with
  | atEnd => cases hsoft
  | atBreak => cases hsoft
  | @atCut line rest filled cut i hi ho =>
    left
    have hvisible : i.isVisible = true := (Instruction.isVisible_iff i).2 ho.1
    apply showsBeforeBreak_append
    · intro j hj
      exact hf.line j (List.mem_of_mem_drop hj)
    · rw [showsBeforeBreak_cons _ hi, hvisible, Bool.true_or]
  | @afterSpace line behind rest filled cut space closed hb hd hw hz hc =>
    right
    obtain ⟨before, hitems⟩ := hf.suffix
    cases hc with
    | atEnd => cases hsoft
    | atBreak => cases hsoft
    | @atOther passed more i hp hif hid hic =>
      exact ⟨⟨before, space, passed, hitems.symm, hd, hp⟩, i, more, rfl, hif, hid, hic⟩

/-- Exactly where a soft line has something visible behind it: everywhere but in front of something
dangling behind the white space that has ended the line. -/
theorem soft_line_shows_iff {width : α} {items rest : List (Instruction α)} {l : Line α}
    (h : greedyLine width items = (.ok (some l), rest)) (hsoft : l.hardBreak = false) :
    showsBeforeBreak rest = true ↔ ¬ (BehindSpace items rest ∧ Dangling rest) := by
  obtain ⟨f, hsteps, hend⟩ := FillRun.of_greedyLine h
  have hf := (unbroken_start items).run hsteps
  constructor
  · rintro hshows ⟨-, hdangling⟩
    cases hdangling with
    | mk hif _ _ hi hmore =>
      rw [showsBeforeBreak_cons _ hif, hi, hmore] at hshows
      cases hshows
  · intro hnone
    rcases hend.soft_cases hf hsoft with hshows | ⟨hspace, i, more, rfl, hif, hid, hic⟩
    · exact hshows
    · by_contra hshows
      rw [showsBeforeBreak_cons _ hif, Bool.or_eq_true, not_or, Bool.not_eq_true,
        Bool.not_eq_true] at hshows
      exact hnone ⟨hspace, .mk hif hid hic hshows.1 hshows.2⟩

/-! ## Soft lines to look at -/

/-- What is left behind a soft line, if that is what comes first. -/
def behindSoftLine (width : α) (items : List (Instruction α)) : Option (List (Instruction α)) :=
  match greedyLine width items with
  | (.ok (some l), rest) => if l.hardBreak then none else some rest
  | _ => none

theorem exists_soft_line {width : α} {items : List (Instruction α)}
    {p : List (Instruction α) → Bool} (h : (behindSoftLine width items).any p = true) :
    ∃ l rest, greedyLine width items = (.ok (some l), rest) ∧ l.hardBreak = false ∧
      p rest = true := by
  unfold behindSoftLine at h
  split at h
  · next l rest hline =>
    cases hhard : l.hardBreak with
    | true => simp [hhard] at h
    | false => exact ⟨l, rest, hline, hhard, by simpa [hhard] using h⟩
  · simp at h

/-- The first of two words is soft, and the second is shown after it. -/
theorem soft_line_shows_words :
    ∃ l rest, greedyLine 12 Sample.words = (.ok (some l), rest) ∧ l.hardBreak = false ∧
      ¬ (BehindSpace Sample.words rest ∧ Dangling rest) := by
  obtain ⟨l, rest, hline, hsoft, hshows⟩ :
      ∃ l rest, greedyLine 12 Sample.words = (.ok (some l), rest) ∧ l.hardBreak = false ∧
        showsBeforeBreak rest = true := exists_soft_line (by decide +kernel)
  exact ⟨l, rest, hline, hsoft, (soft_line_shows_iff hline hsoft).1 hshows⟩

/-- A word before an empty tag is soft, though nothing is shown after it. -/
theorem soft_line_before_emptyTag :
    (∀ i ∈ Sample.emptyTag, i.Made) ∧ (∀ i ∈ Sample.emptyTag, 0 ≤ i.width) ∧
      ∃ l rest, greedyLine 12 Sample.emptyTag = (.ok (some l), rest) ∧ l.hardBreak = false ∧
        showsBeforeBreak rest = false := by
  obtain ⟨l, rest, hline, hsoft, hshows⟩ :
      ∃ l rest, greedyLine 12 Sample.emptyTag = (.ok (some l), rest) ∧ l.hardBreak = false ∧
        (!showsBeforeBreak rest) = true :=
    exists_soft_line (p := fun rest => !showsBeforeBreak rest) (by decide +kernel)
  exact ⟨Sample.emptyTag_made, by decide +kernel, l, rest, hline, hsoft, by simpa using hshows⟩

end Paragraph
end Galley
