import Galley.Proofs.Paragraph.Optimality

/-
What the search charges for a line, against what is drawn of it.

The search adds the widths up while a line grows, without the white space that the line ends with.
Making the line also drops white space that only markers follow.  The width that the search has
recorded is therefore that of the line and of the white space hidden behind its markers
(`hiddenSpace`), and the line is charged for the room that this leaves.

Main theorem: `recorded_width_iff`.
-/

namespace Galley
namespace Paragraph

variable {limits : Limits Rat} {items : List (Instruction Rat)}

/-- White space that trimming drops from a line although the line does not end with it: it stands
in front of the markers that do. -/
def hiddenSpace {α : Type} (piece : List (Instruction α)) : List (Instruction α) :=
  ((piece.rdropWhile Instruction.discardable).rtakeWhile Instruction.trails).filter
    Instruction.discardable

theorem totalWidth_solidPart (items : List (Instruction Rat)) :
    totalWidth items =
      totalWidth (solidPart items) + totalWidth (items.filter Instruction.discardable) := by
  induction items with
  | nil => exact (add_zero 0).symm
  | cons i items ih =>
    unfold solidPart at ih ⊢
    cases hd : i.discardable with
    | true =>
      rw [List.filter_cons_of_neg (by simp [hd]), List.filter_cons_of_pos hd, totalWidth_cons,
        totalWidth_cons, ih]
      ring
    | false =>
      rw [List.filter_cons_of_pos (by simp [hd]), List.filter_cons_of_neg (by simp [hd]),
        totalWidth_cons, totalWidth_cons, ih]
      ring

theorem rdropWhile_append_spaces (line : List (Instruction Rat)) {spaces : List (Instruction Rat)}
    (hs : ∀ j ∈ spaces, j.discardable = true) :
    (line ++ spaces).rdropWhile Instruction.discardable =
      line.rdropWhile Instruction.discardable := by
  induction spaces using List.reverseRecOn with
  | nil => rw [List.append_nil]
  | append_singleton spaces sp ih =>
    rw [← List.append_assoc, List.rdropWhile_concat_pos _ _ _ (hs sp (by simp))]
    exact ih fun j hj => hs j (List.mem_append_left _ hj)

/-- Without the white space that it ends with, a piece is as wide as its line and what is hidden. -/
theorem totalWidth_rdropWhile (piece : List (Instruction Rat)) :
    totalWidth (piece.rdropWhile Instruction.discardable) =
      totalWidth (Line.trim piece) + totalWidth (hiddenSpace piece) := by
  have hspaces : ∀ j ∈ piece.rtakeWhile Instruction.discardable, j.discardable = true :=
    fun j hj => List.mem_rtakeWhile_imp hj
  have htrim : Line.trim piece = Line.trim (piece.rdropWhile Instruction.discardable) := by
    conv_lhs => rw [← List.rdropWhile_append_rtakeWhile (p := Instruction.discardable) (l := piece)]
    exact trim_append_spaces _ hspaces
  unfold hiddenSpace
  generalize piece.rdropWhile Instruction.discardable = line at htrim ⊢
  rw [htrim, trim_eq, totalWidth_append, add_assoc, ← totalWidth_solidPart, ← totalWidth_append,
    List.rdropWhile_append_rtakeWhile]

theorem totalWidth_eq_zero_iff (hw : ∀ i ∈ items, 0 ≤ i.width) :
    totalWidth items = 0 ↔ ∀ i ∈ items, i.width = 0 := by
  induction items with
  | nil => simp
  | cons i items ih =>
    have hi := hw i List.mem_cons_self
    have hitems : ∀ j ∈ items, 0 ≤ j.width := fun j hj => hw j (List.mem_cons_of_mem i hj)
    rw [totalWidth_cons, add_eq_zero_iff_of_nonneg hi (totalWidth_nonneg hitems), ih hitems]
    simp

/-! ## One break -/

theorem fitsIn_append_blank {width : Rat} {line tail : List (Instruction Rat)} (ht : Blank tail) :
    FitsIn width (line ++ tail) ↔ FitsIn width line := by
  unfold FitsIn
  rw [Everywhere.append_iff]
  refine and_iff_left ?_
  intro front i back htail hi
  rw [ht i (by rw [htail]; simp)] at hi
  cases hi

/-- A line is charged the penalty for what is too wide on it, if there is a penalty. -/
def Penalized (limits : Limits Rat) (piece : List (Instruction Rat)) : Prop :=
  0 < limits.penalty ∧ ¬ FitsIn limits.width piece

/-- What the search has recorded for the line of these instructions that ends with the break. -/
structure Charged (limits : Limits Rat) (piece : List (Instruction Rat)) (b : Break Rat) :
    Prop where
  width : b.width = (Line.ofInstructions piece false).width + totalWidth (hiddenSpace piece)
  penalty : Penalized limits piece → b.badness = limits.penalty
  room : ¬ Penalized limits piece → b.badness = (limits.width - b.width) ^ 2

theorem Growth.badnessAt_cases (limits : Limits Rat) (line : List (Instruction Rat))
    (i : Instruction Rat) :
    (Penalized limits (line ++ [i]) ∧
        (Growth.of limits line).badnessAt limits i = limits.penalty) ∨
      (¬ Penalized limits (line ++ [i]) ∧ (Growth.of limits line).badnessAt limits i =
        (limits.width - (totalWidth line + i.solidWidth)) ^ 2) := by
  unfold badnessAt Penalized
  rw [running_of, Scalar.power_two]
  rcases penaltyWith_of limits line i with ⟨hfits, hcost⟩ | ⟨hfits, hcost⟩
  · rw [hcost]
    by_cases hpos : 0 < limits.penalty
    · exact Or.inl ⟨⟨hpos, hfits⟩, if_pos hpos⟩
    · exact Or.inr ⟨fun h => hpos h.1, if_neg hpos⟩
  · rw [hcost, if_neg (lt_irrefl 0)]
    exact Or.inr ⟨fun h => h.2 hfits, rfl⟩

/-- The width of a line up to a break is that of the line without the white space at its end,
since a line does not end within a run of white space. -/
theorem Growth.Ends.width {front rest : List (Instruction Rat)} {i : Instruction Rat}
    (h : Growth.Ends limits front i rest) :
    totalWidth front + i.solidWidth =
      totalWidth ((front ++ [i]).rdropWhile Instruction.discardable) := by
  cases hd : i.discardable with
  | false =>
    rw [List.rdropWhile_concat_neg _ _ _ (by simp [hd]), totalWidth_concat,
      Instruction.solidWidth_of_not_discardable hd]
  | true =>
    have hfront : front.rdropWhile Instruction.discardable = front := by
      refine List.rdropWhile_eq_self_iff.2 fun hne hlast => ?_
      exact h.may.2 ⟨(Growth.afterSpace_of limits front).2
        ⟨_, List.getLast?_eq_getLast_of_ne_nil hne, hlast⟩, hd⟩
    rw [List.rdropWhile_concat_pos _ _ _ hd, hfront, Instruction.solidWidth_of_discardable hd,
      add_zero]

theorem charged_of_mem_breaks {s : Nat} {b : Break Rat} (hb : b ∈ breaksFrom limits items s) :
    Charged limits ((items.drop s).take (b.next - s)) b := by
  obtain ⟨front, i, rest, hitems, -, hends, rfl⟩ :=
    (mem_breaks_iff limits s [] (items.drop s) b).1 hb
  rw [List.nil_append] at hends ⊢
  have hspaces : ∀ j ∈ rest.takeWhile Instruction.discardable, j.discardable = true :=
    fun j hj => List.mem_takeWhile_imp hj
  have hpenalized : Penalized limits (front ++ [i] ++ rest.takeWhile Instruction.discardable) ↔
      Penalized limits (front ++ [i]) :=
    and_congr_right fun _ => not_congr (fitsIn_append_blank (blank_of_discardable hspaces))
  have hwidth : (Growth.of limits front).running + i.solidWidth = totalWidth
      ((front ++ [i] ++ rest.takeWhile Instruction.discardable).rdropWhile
        Instruction.discardable) := by
    rw [rdropWhile_append_spaces _ hspaces, Growth.running_of, hends.width]
  show Charged limits
    ((items.drop s).take (s + front.length + 1 + leadingSpaces rest - s)) _
  rw [take_of_break hitems]
  refine ⟨hwidth.trans (totalWidth_rdropWhile _), fun h => ?_, fun h => ?_⟩
  · rw [hpenalized] at h
    rcases Growth.badnessAt_cases limits front i with ⟨-, hbadness⟩ | ⟨hnot, -⟩
    · exact hbadness
    · exact absurd h hnot
  · rw [hpenalized] at h
    rcases Growth.badnessAt_cases limits front i with ⟨hpen, -⟩ | ⟨-, hbadness⟩
    · exact absurd hpen h
    · rw [← Growth.running_of limits front] at hbadness
      exact hbadness

/-! ## The breaks that the search finds -/

theorem Path.badness_along (bs : List (Break Rat)) :
    (Path.along bs).badness = (bs.map Break.badness).sum := by
  induction bs with
  | nil => rfl
  | cons b bs ih => rw [Path.badness_along_cons, ih, List.map_cons, List.sum_cons]

/-- The search finds breaks whose badness adds up, with the penalty of the last line, and they cut
the paragraph into the pieces that its lines are made of.  The width recorded with each break is that
of the line made of the piece before it exactly if no white space with a width is hidden behind
markers at the end of the piece. -/
theorem recorded_width_iff (limits : Limits Rat) (items : List (Instruction Rat))
    (hw : ∀ i ∈ items, 0 ≤ i.width) {starts : List Nat}
    (hfound : findBreaks limits items = some starts) :
    ∃ p bs s c pieces last,
      searchFrom limits 0 items (startPaths items.length) none = some p ∧
      Course limits items 0 bs s ∧ endFrom limits items s = some c ∧
      p.badness = (bs.map Break.badness).sum + c ∧ starts = 0 :: bs.map Break.next ∧
      cutAt 0 items (starts.drop 1) = pieces ++ [last] ∧
      linesOfPieces (cutAt 0 items (starts.drop 1)) =
        pieces.map (fun piece => Line.ofInstructions piece false) ++
          [.ofInstructions last true] ∧
      List.Forall₂ (fun piece b => Charged limits piece b ∧
        (b.width = (Line.ofInstructions piece false).width ↔
          ∀ i ∈ hiddenSpace piece, i.width = 0)) pieces bs := by
  rw [findBreaks_eq] at hfound
  obtain ⟨p, hp, rfl⟩ := Option.map_eq_some_iff.1 hfound
  obtain ⟨bs, s, c, hbs, hc, rfl⟩ :=
    searchFrom_sound List.drop_zero (startPaths_sound limits items) p hp
  obtain ⟨pieces, hcut, hpieces⟩ := hbs.cutAt_eq
  rw [List.drop_zero] at hcut
  have hstarts : (Path.along bs).starts.reverse = 0 :: bs.map Break.next := Path.starts_along bs
  have hslices : cutAt 0 items ((Path.along bs).starts.reverse.drop 1) =
      pieces ++ [items.drop s] := by
    rw [hstarts, List.drop_one, List.tail_cons, hcut]
  refine ⟨_, bs, s, c, pieces, items.drop s, hp, hbs, hc, ?_, hstarts, hslices, ?_, ?_⟩
  · rw [← Path.badness_along]
  · rw [hslices, linesOfPieces_concat]
  · refine hpieces.imp ?_
    rintro piece b ⟨u, hb, rfl⟩
    have hcharged := charged_of_mem_breaks hb
    refine ⟨hcharged, ?_⟩
    have hhidden : ∀ i ∈ hiddenSpace ((items.drop u).take (b.next - u)), 0 ≤ i.width := by
      intro i hi
      have hi := (List.rtakeWhile_suffix _ _).subset (List.mem_filter.1 hi).1
      have hi := (List.rdropWhile_prefix _ _).subset hi
      exact hw i (List.mem_of_mem_drop (List.mem_of_mem_take hi))
    rw [hcharged.width, add_eq_left, totalWidth_eq_zero_iff hhidden]

namespace Sample

/-- A word, white space on both sides of an opening tag, and three more words. -/
def spacedTag : List (Instruction Rat) :=
  [run "a", run " ", other (.tagOpen "b"), run " ", run "b", run " ", run "cc", run " ", run "dd",
    other (.tagClose "b")]

/-- A column of four characters, at the fourth of the standard attempts. -/
def spacedLimits : Limits Rat := OptimalConfig.standard.limitsAt 24 3

end Sample

theorem recorded_width_spacedTag :
    (∀ i ∈ Sample.spacedTag, 0 ≤ i.width) ∧
      findBreaks Sample.spacedLimits Sample.spacedTag = some [0, 4, 8] ∧
      ∃ p bs s c pieces last,
        searchFrom Sample.spacedLimits 0 Sample.spacedTag (startPaths 10) none = some p ∧
        Course Sample.spacedLimits Sample.spacedTag 0 bs s ∧
        endFrom Sample.spacedLimits Sample.spacedTag s = some c ∧
        p.badness = (bs.map Break.badness).sum + c ∧ [0, 4, 8] = 0 :: bs.map Break.next ∧
        cutAt 0 Sample.spacedTag [4, 8] = pieces ++ [last] ∧
        linesOfPieces (cutAt 0 Sample.spacedTag [4, 8]) =
          pieces.map (fun piece => Line.ofInstructions piece false) ++
            [.ofInstructions last true] ∧
        List.Forall₂ (fun piece b => Charged Sample.spacedLimits piece b ∧
          (b.width = (Line.ofInstructions piece false).width ↔
            ∀ i ∈ hiddenSpace piece, i.width = 0)) pieces bs := by
  have hw : ∀ i ∈ Sample.spacedTag, 0 ≤ i.width := by decide +kernel
  have hfound : findBreaks Sample.spacedLimits Sample.spacedTag = some [0, 4, 8] := by
    decide +kernel
  exact ⟨hw, hfound, recorded_width_iff Sample.spacedLimits Sample.spacedTag hw hfound⟩

/-- The white space in front of the tag is hidden behind it.  The search charges the first line for
the twelve points that it would leave, though it leaves eighteen, and so takes it for allowed. -/
theorem hidden_space_recorded :
    (∀ i ∈ Sample.spacedTag, 0 ≤ i.width) ∧
      attemptBreaks 24 .standard Sample.spacedTag 13 0 = some [0, 4, 8] ∧
      (searchFrom Sample.spacedLimits 0 Sample.spacedTag (startPaths 10) none).map
        Path.badness = some 144 ∧
      (144 : Rat) < Sample.spacedLimits.penalty ∧
      (linesOfPieces (cutAt 0 Sample.spacedTag [4, 8])).map Line.width = [6, 24, 12] ∧
      (((linesOfPieces (cutAt 0 Sample.spacedTag [4, 8])).dropLast.map fun l =>
        (24 - l.width) ^ 2).sum = 324) ∧
      Sample.spacedLimits.tolerance < 324 := by
  decide +kernel

end Paragraph
end Galley
