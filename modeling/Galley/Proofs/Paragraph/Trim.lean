import Galley.Proofs.Paragraph.Instruction

/-
What a line drops from the instructions it is made of.

`Trimmed segment line` is the whole licence: white space may be missing from the line before the
first and after the last visible instruction of the segment, and nothing else.  Trimming the end
of a line stays within it (`trimmed_trim`), and so does dropping twice (`Trimmed.trans`).

`Stays` says of each place whether its instruction is still on the line, and trimming keeps just
those (`line_keeps_exactly`).  That is proved from the front of the line, although it is trimmed from
the end (`trim_cons`).
-/

namespace Galley
namespace Paragraph

variable {α : Type} [Scalar α]

/-- Nothing is visible among these. -/
def Blank (items : List (Instruction α)) : Prop := ∀ i ∈ items, i.isVisible = false

/-- The instructions that are not white space. -/
def solidPart (items : List (Instruction α)) : List (Instruction α) :=
  items.filter fun i => !i.discardable

/-- `Kept seen segment line`: the line holds the segment in order, without some white space that
nothing visible comes before or nothing visible comes after.  `seen` tells whether something
visible has come before the segment. -/
inductive Kept : Bool → List (Instruction α) → List (Instruction α) → Prop where
  | nil (seen : Bool) : Kept seen [] []
  | keep {seen : Bool} (i : Instruction α) {segment line : List (Instruction α)}
      (h : Kept (seen || i.isVisible) segment line) : Kept seen (i :: segment) (i :: line)
  | drop {seen : Bool} {i : Instruction α} {segment line : List (Instruction α)}
      (hi : i.discardable = true) (hout : seen = false ∨ Blank segment)
      (h : Kept seen segment line) : Kept seen (i :: segment) line

/-- The line is the segment without some white space before its first and after its last visible
instruction. -/
def Trimmed (segment line : List (Instruction α)) : Prop := Kept false segment line

namespace Blank

theorem append {a b : List (Instruction α)} (ha : Blank a) (hb : Blank b) : Blank (a ++ b) := by
  intro i hi
  rcases List.mem_append.1 hi with h | h
  · exact ha i h
  · exact hb i h

theorem cons {i : Instruction α} {a : List (Instruction α)} (hi : i.isVisible = false)
    (ha : Blank a) : Blank (i :: a) := by
  intro j hj
  rcases List.mem_cons.1 hj with rfl | hj
  · exact hi
  · exact ha j hj

theorem head {i : Instruction α} {a : List (Instruction α)} (h : Blank (i :: a)) :
    i.isVisible = false := h i List.mem_cons_self

theorem tail {i : Instruction α} {a : List (Instruction α)} (h : Blank (i :: a)) : Blank a :=
  fun j hj => h j (List.mem_cons_of_mem i hj)

end Blank

section

variable [Scalar.KeepsSign α]

theorem blank_of_discardable {items : List (Instruction α)}
    (h : ∀ i ∈ items, i.discardable = true) : Blank items :=
  fun i hi => Instruction.not_isVisible_of_discardable (h i hi)

theorem blank_of_marker {items : List (Instruction α)} (hmade : ∀ i ∈ items, i.Made)
    (h : ∀ i ∈ items, i.discardable = true ∨ i.isMarker = true) : Blank items := by
  intro i hi
  rcases h i hi with hd | hm
  · exact Instruction.not_isVisible_of_discardable hd
  · exact Instruction.not_isVisible_of_marker (hmade i hi) hm

end

/-! ## Dropping within the licence -/

namespace Kept

theorem refl (seen : Bool) (items : List (Instruction α)) : Kept seen items items := by
  induction items generalizing seen with
  | nil => exact .nil seen
  | cons i rest ih => exact .keep i (ih _)

theorem sublist {seen : Bool} {segment line : List (Instruction α)} (h : Kept seen segment line) :
    line.Sublist segment := by
  induction h with
  | nil => exact List.Sublist.refl []
  | keep i _ ih => exact ih.cons_cons i
  | drop _ _ _ ih => exact ih.cons _

theorem append_solidPart {seen : Bool} {segment line tail : List (Instruction α)}
    (h : Kept seen segment line) (ht : Blank tail) :
    Kept seen (segment ++ tail) (line ++ solidPart tail) := by
  induction h with
  | nil seen =>
    -- the tail alone: its white space goes, as nothing visible comes after it
    induction tail generalizing seen with
    | nil => exact .nil seen
    | cons i rest ih =>
      cases hd : i.discardable with
      | true =>
        have hrest := ih (ht.tail) seen
        simpa [solidPart, hd] using Kept.drop hd (Or.inr ht.tail) hrest
      | false =>
        have hrest := ih (ht.tail) (seen || i.isVisible)
        simpa [solidPart, hd] using Kept.keep i hrest
  | keep i _ ih => exact .keep i ih
  | drop hi hout _ ih =>
    refine .drop hi ?_ ih
    rcases hout with hseen | hblank
    · exact Or.inl hseen
    · exact Or.inr (hblank.append ht)

variable [Scalar.KeepsSign α]

theorem blank_segment {seen : Bool} {segment line : List (Instruction α)}
    (h : Kept seen segment line) (hl : Blank line) : Blank segment := by
  induction h with
  | nil => exact hl
  | keep i _ ih => exact Blank.cons hl.head (ih hl.tail)
  | drop hi _ _ ih => exact Blank.cons (Instruction.not_isVisible_of_discardable hi) (ih hl)

theorem trans {seen : Bool} {a b c : List (Instruction α)} (hab : Kept seen a b)
    (hbc : Kept seen b c) : Kept seen a c := by
  induction hab generalizing c with
  | nil => exact hbc
  | keep i hab ih =>
    cases hbc with
    | keep _ hbc => exact .keep i (ih hbc)
    | drop hi hout hbc =>
      -- white space is not visible, so dropping it leaves `seen` as it is
      rw [Instruction.not_isVisible_of_discardable hi, Bool.or_false] at hab ih
      exact .drop hi (hout.imp id hab.blank_segment) (ih hbc)
  | drop hi hout _ ih => exact .drop hi hout (ih hbc)

end Kept

theorem Trimmed.trans [Scalar.KeepsSign α] {a b c : List (Instruction α)} (hab : Trimmed a b)
    (hbc : Trimmed b c) : Trimmed a c := Kept.trans hab hbc

/-! ## Trimming the end of a line -/

/-- May come behind the last thing that a line shows. -/
def Instruction.trails (i : Instruction α) : Bool := i.discardable || i.isMarker

omit [Scalar α] in
theorem trimReversed_eq (items : List (Instruction α)) :
    Line.trimReversed items =
      solidPart (items.takeWhile Instruction.trails) ++ items.dropWhile Instruction.trails := by
  induction items with
  | nil => rfl
  | cons i rest ih =>
    rw [Line.trimReversed, ih]
    cases hd : i.discardable with
    | true =>
      have htrails : i.trails = true := by simp [Instruction.trails, hd]
      rw [if_pos rfl, List.takeWhile_cons_of_pos htrails, List.dropWhile_cons_of_pos htrails]
      simp [solidPart, hd]
    | false =>
      rw [if_neg (by decide)]
      cases hm : i.isMarker with
      | true =>
        have htrails : i.trails = true := by simp [Instruction.trails, hm]
        rw [if_pos rfl, List.takeWhile_cons_of_pos htrails, List.dropWhile_cons_of_pos htrails]
        simp [solidPart, hd]
      | false =>
        have htrails : ¬ i.trails = true := by simp [Instruction.trails, hd, hm]
        rw [if_neg (by decide), List.takeWhile_cons_of_neg htrails,
          List.dropWhile_cons_of_neg htrails]
        rfl

omit [Scalar α] in
/-- A line is trimmed of the white space among the white space and markers at its end. -/
theorem trim_eq (items : List (Instruction α)) :
    Line.trim items =
      items.rdropWhile Instruction.trails ++ solidPart (items.rtakeWhile Instruction.trails) := by
  rw [Line.trim, trimReversed_eq, List.reverse_append]
  unfold solidPart
  rw [← List.filter_reverse]
  rfl

omit [Scalar α] in
theorem trim_split (items : List (Instruction α)) :
    ∃ body tail, items = body ++ tail ∧ Line.trim items = body ++ solidPart tail ∧
      ∀ i ∈ tail, i.discardable = true ∨ i.isMarker = true := by
  refine ⟨_, _, (List.rdropWhile_append_rtakeWhile).symm, trim_eq items, fun i hi => ?_⟩
  simpa [Instruction.trails] using List.mem_rtakeWhile_imp hi

omit [Scalar α] in
theorem trim_sublist (items : List (Instruction α)) : (Line.trim items).Sublist items := by
  obtain ⟨body, tail, hitems, htrim, -⟩ := trim_split items
  rw [htrim, hitems]
  exact (List.Sublist.refl body).append List.filter_sublist

omit [Scalar α] in
theorem trim_concat_space (items : List (Instruction α)) {sp : Instruction α}
    (h : sp.discardable = true) : Line.trim (items ++ [sp]) = Line.trim items := by
  unfold Line.trim
  rw [List.reverse_append, List.reverse_singleton, List.singleton_append, Line.trimReversed,
    if_pos h]

omit [Scalar α] in
theorem trim_append_spaces (items : List (Instruction α)) {spaces : List (Instruction α)}
    (h : ∀ j ∈ spaces, j.discardable = true) :
    Line.trim (items ++ spaces) = Line.trim items := by
  induction spaces using List.reverseRecOn with
  | nil => rw [List.append_nil]
  | append_singleton spaces sp ih =>
    rw [← List.append_assoc, trim_concat_space _ (h sp (by simp))]
    exact ih fun j hj => h j (List.mem_append_left _ hj)

theorem trimmed_trim [Scalar.KeepsSign α] {items : List (Instruction α)}
    (hmade : ∀ i ∈ items, i.Made) : Trimmed items (Line.trim items) := by
  obtain ⟨body, tail, hitems, htrim, htail⟩ := trim_split items
  have hblank : Blank tail := blank_of_marker
    (fun i hi => hmade i (by rw [hitems]; exact List.mem_append_right body hi)) htail
  rw [htrim]
  exact hitems ▸ (Kept.refl false body).append_solidPart hblank

/-! ## Which instructions stay -/

/-- The instruction at a place is no white space, or something comes behind it that is neither a
marker nor white space. -/
def Stays (items : List (Instruction α)) (n : Fin items.length) : Prop :=
  items[n].discardable = false ∨
    ∃ m, n < m ∧ items[m].isMarker = false ∧ items[m].discardable = false

instance (items : List (Instruction α)) : DecidablePred (Stays items) := fun n =>
  inferInstanceAs (Decidable (items[n].discardable = false ∨
    ∃ m, n < m ∧ items[m].isMarker = false ∧ items[m].discardable = false))

section

omit [Scalar α]

theorem trails_eq_false_iff {i : Instruction α} :
    i.trails = false ↔ i.isMarker = false ∧ i.discardable = false := by
  rw [Instruction.trails, Bool.or_eq_false_iff, and_comm]

theorem stays_zero {i : Instruction α} {items : List (Instruction α)} :
    Stays (i :: items) (0 : Fin (items.length + 1)) ↔
      i.discardable = false ∨ ∃ j ∈ items, j.trails = false := by
  show i.discardable = false ∨ (∃ m : Fin (items.length + 1), _) ↔ _
  rw [Fin.exists_fin_succ]
  simp [trails_eq_false_iff, List.exists_mem_iff_getElem, Fin.exists_iff]

theorem stays_succ {i : Instruction α} {items : List (Instruction α)} {n : Fin items.length} :
    Stays (i :: items) n.succ ↔ Stays items n := by
  show items[n].discardable = false ∨ (∃ m : Fin (items.length + 1), _) ↔ _
  rw [Fin.exists_fin_succ]
  simp [Stays]

/-- Whether the first instruction stays is settled by what comes behind it. -/
theorem trimReversed_concat (items : List (Instruction α)) (i : Instruction α) :
    Line.trimReversed (items ++ [i]) = Line.trimReversed items ++
      if i.discardable = false ∨ ∃ j ∈ items, j.trails = false then [i] else [] := by
  induction items with
  | nil => cases hd : i.discardable <;> simp [Line.trimReversed, hd]
  | cons j rest ih =>
    rw [List.cons_append, Line.trimReversed, Line.trimReversed]
    by_cases hd : j.discardable = true
    · have htrails : j.trails = true := by simp [Instruction.trails, hd]
      rw [if_pos hd, if_pos hd, ih]
      simp [htrails]
    · rw [if_neg hd, if_neg hd]
      by_cases hm : j.isMarker = true
      · have htrails : j.trails = true := by simp [Instruction.trails, hm]
        rw [if_pos hm, if_pos hm, ih]
        simp [htrails]
      · have htrails : j.trails = false := by simp [Instruction.trails, hd, hm]
        rw [if_neg hm, if_neg hm]
        simp [htrails]

theorem trim_cons (i : Instruction α) (items : List (Instruction α)) :
    Line.trim (i :: items) =
      if i.discardable = false ∨ ∃ j ∈ items, j.trails = false then i :: Line.trim items
      else Line.trim items := by
  unfold Line.trim
  rw [List.reverse_cons, trimReversed_concat, List.reverse_append]
  simp only [List.mem_reverse]
  split <;> rfl

theorem trim_eq_filter (items : List (Instruction α)) :
    Line.trim items =
      ((List.finRange items.length).filter fun n => Stays items n).map items.get := by
  induction items with
  | nil => rfl
  | cons i items ih =>
    have hbehind : ((List.finRange items.length).map Fin.succ).filter
        (fun n => Stays (i :: items) n) =
        ((List.finRange items.length).filter fun n => Stays items n).map Fin.succ := by
      rw [List.filter_map]
      refine congrArg (List.map Fin.succ) (List.filter_congr fun n _ => ?_)
      exact decide_eq_decide.2 stays_succ
    have hplaces : List.finRange (i :: items).length =
        (0 : Fin (items.length + 1)) :: (List.finRange items.length).map Fin.succ :=
      List.finRange_succ
    rw [trim_cons, hplaces, List.filter_cons, hbehind, ih]
    simp only [decide_eq_true_eq, stays_zero]
    split
    · rw [List.map_cons, List.map_map]
      rfl
    · rw [List.map_map]
      rfl

/-- What is neither a marker nor white space stays. -/
theorem exists_not_trails_trim {items : List (Instruction α)} :
    (∃ j ∈ Line.trim items, j.trails = false) ↔ ∃ j ∈ items, j.trails = false := by
  induction items with
  | nil => rfl
  | cons i items ih =>
    rw [trim_cons]
    split
    · simp only [List.mem_cons, exists_eq_or_imp, ih]
    · next h =>
      obtain ⟨hspace, -⟩ := not_or.1 h
      have htrails : i.trails = true := by simp [Instruction.trails, hspace]
      simp [ih, htrails]

theorem trim_trim (items : List (Instruction α)) :
    Line.trim (Line.trim items) = Line.trim items := by
  induction items with
  | nil => rfl
  | cons i items ih =>
    rw [trim_cons]
    split
    · next h => rw [trim_cons, if_pos (h.imp_right exists_not_trails_trim.2), ih]
    · exact ih

end

/-- The line is made of the instructions that stay, in their order, and a line made of the
instructions of a line is that line. -/
theorem line_keeps_exactly (items : List (Instruction α)) (hardBreak : Bool) :
    (Line.ofInstructions items hardBreak).instructions =
        ((List.finRange items.length).filter fun n => Stays items n).map items.get ∧
      Line.ofInstructions (Line.ofInstructions items hardBreak).instructions hardBreak =
        Line.ofInstructions items hardBreak := by
  refine ⟨trim_eq_filter items, ?_⟩
  show Line.ofInstructions (Line.trim items) hardBreak = _
  unfold Line.ofInstructions
  rw [trim_trim]

end Paragraph
end Galley
