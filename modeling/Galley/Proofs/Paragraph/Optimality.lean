import Galley.Proofs.Paragraph.Width

/-
The search finds the best way to break a paragraph, whenever there is one.

What a line of the paragraph may be and what it costs is said without the search, of the
instructions on the line (`Allowed`, `LastLine`).  A `Chain` is a way to break the paragraph from
some place on into such lines.  Main theorem: `findBreaks_optimal`.
-/

namespace Galley
namespace Paragraph

/-- Everything that shows on the line ends within the width. -/
def FitsIn (width : Rat) (line : List (Instruction Rat)) : Prop :=
  Everywhere (fun front i _ => i.isVisible = true →
    totalWidth (front ++ [i]) ≤ width + Scalar.epsilon) line

theorem fitsIn_concat_iff (width : Rat) (line : List (Instruction Rat)) (i : Instruction Rat) :
    FitsIn width (line ++ [i]) ↔
      FitsIn width line ∧ ¬ Overflows width (totalWidth line) i := by
  unfold FitsIn
  rw [Everywhere.concat_iff, overflows_iff, not_and, not_lt]

/-- The line has room for a break opportunity that it does not end with: the white space of it
fits as well, and nothing has overflowed before. -/
def HasRoom (width : Rat) (line : List (Instruction Rat)) (i : Instruction Rat) : Prop :=
  totalWidth (line ++ [i]) ≤ width + Scalar.epsilon ∧ FitsIn width line

/-! ## Lines -/

/-- What the line costs whose instructions these are: a penalty where it overflows, and what it
costs otherwise. -/
def Costs (limits : Limits Rat) (line : List (Instruction Rat)) (otherwise cost : Rat) : Prop :=
  (¬ FitsIn limits.width line ∧ cost = limits.penalty) ∨
    (FitsIn limits.width line ∧ cost = otherwise)

/-- A line of `front` that ends with `i`, before `rest`. -/
structure Ending (limits : Limits Rat) (front : List (Instruction Rat)) (i : Instruction Rat)
    (rest : List (Instruction Rat)) (cost : Rat) : Prop where
  opportunity : i.breakOpportunity = true
  shows : ∃ j ∈ rest, j.isVisible = true
  firstSpace : i.discardable = true → ∀ j ∈ front.getLast?, j.discardable = false
  room : Everywhere (fun before j _ => j.breakOpportunity = true → HasRoom limits.width before j)
    front
  keeps : KeepsTo limits.width (front ++ [i])
  costs : Costs limits (front ++ [i]) ((limits.width - (totalWidth front + i.solidWidth)) ^ 2) cost
  tolerated : FitsIn limits.width (front ++ [i]) → cost ≤ limits.tolerance

/-- A line may start at `s` so that the next starts at `t`, the first place behind its last
instruction that does not hold white space. -/
def Allowed (limits : Limits Rat) (items : List (Instruction Rat)) (s t : Nat) (cost : Rat) :
    Prop :=
  ∃ front i spaces next more, items.drop s = front ++ i :: (spaces ++ next :: more) ∧
    (∀ j ∈ spaces, j.discardable = true) ∧ next.discardable = false ∧
    t = s + front.length + 1 + spaces.length ∧
    Ending limits front i (spaces ++ next :: more) cost

/-- The last line may start at `s`. -/
structure LastLine (limits : Limits Rat) (items : List (Instruction Rat)) (s : Nat) (cost : Rat) :
    Prop where
  room : Everywhere (fun before j after => j.breakOpportunity = true →
    (∃ k ∈ after, k.isVisible = true) → HasRoom limits.width before j) (items.drop s)
  keeps : KeepsTo limits.width (items.drop s)
  costs : Costs limits (items.drop s) 0 cost

/-- Lines from `s` to the end of the paragraph, with the places where they start. -/
inductive Chain (limits : Limits Rat) (items : List (Instruction Rat)) :
    Nat → List Nat → Rat → Prop where
  | last {s : Nat} {cost : Rat} (h : LastLine limits items s cost) : Chain limits items s [s] cost
  | line {s t : Nat} {starts : List Nat} {cost others : Rat} (h : Allowed limits items s t cost)
      (hrest : Chain limits items t starts others) :
      Chain limits items s (s :: starts) (cost + others)

/-! ## What growing a line says of it -/

namespace Growth

variable {limits : Limits Rat} {line : List (Instruction Rat)} {i : Instruction Rat}

theorem penalty_of (limits : Limits Rat) (line : List (Instruction Rat)) :
    Costs limits line 0 (Growth.of limits line).penalty := by
  induction line using List.reverseRecOn with
  | nil => exact Or.inr ⟨Everywhere.nil, rfl⟩
  | append_singleton line i ih =>
    have hconcat : (Growth.of limits (line ++ [i])).penalty =
        if Overflows limits.width (totalWidth line) i then limits.penalty
        else (Growth.of limits line).penalty := by
      rw [of_concat, ← running_of limits line]
      rfl
    unfold Costs
    rw [hconcat, fitsIn_concat_iff]
    by_cases ho : Overflows limits.width (totalWidth line) i
    · rw [if_pos ho]
      exact Or.inl ⟨fun h => h.2 ho, rfl⟩
    · rw [if_neg ho]
      rcases ih with ⟨hfits, hcost⟩ | ⟨hfits, hcost⟩
      · exact Or.inl ⟨fun h => hfits h.1, hcost⟩
      · exact Or.inr ⟨⟨hfits, ho⟩, hcost⟩

/-- Taking something onto the line costs what the line then costs. -/
theorem penaltyWith_of (limits : Limits Rat) (line : List (Instruction Rat))
    (i : Instruction Rat) :
    Costs limits (line ++ [i]) 0 ((Growth.of limits line).penaltyWith limits i) := by
  have h := penalty_of limits (line ++ [i])
  rw [of_concat] at h
  exact h

theorem penaltyWith_pos_iff (hpenalty : 0 < limits.penalty) (line : List (Instruction Rat))
    (i : Instruction Rat) :
    0 < (Growth.of limits line).penaltyWith limits i ↔ ¬ FitsIn limits.width (line ++ [i]) := by
  rcases penaltyWith_of limits line i with ⟨hfits, hcost⟩ | ⟨hfits, hcost⟩
  · rw [hcost]
    exact iff_of_true hpenalty hfits
  · rw [hcost]
    exact iff_of_false (lt_irrefl 0) (not_not.2 hfits)

theorem not_full_iff (hpenalty : 0 < limits.penalty) :
    ¬ (Growth.of limits line).Full limits i ↔ HasRoom limits.width line i := by
  unfold Full HasRoom
  rw [penaltyWith_pos_iff hpenalty, running_of, Instruction.solidWidth_add_looseWidth,
    ← totalWidth_concat, not_or, not_not, not_lt, fitsIn_concat_iff, overflows_iff, not_and, not_lt]
  constructor
  · rintro ⟨⟨hfits, -⟩, hroom⟩
    exact ⟨hroom, hfits⟩
  · rintro ⟨hroom, hfits⟩
    exact ⟨⟨hfits, fun _ => hroom⟩, hroom⟩

/-- Badness is the cost of the line that ends here. -/
theorem badnessAt_of (hpenalty : 0 < limits.penalty) :
    Costs limits (line ++ [i]) ((limits.width - (totalWidth line + i.solidWidth)) ^ 2)
      ((Growth.of limits line).badnessAt limits i) := by
  have hpos := penaltyWith_pos_iff hpenalty line i
  unfold badnessAt
  rw [running_of, Scalar.power_two]
  rcases penaltyWith_of limits line i with ⟨hfits, hcost⟩ | ⟨hfits, hcost⟩
  · rw [if_pos (hpos.2 hfits)]
    exact Or.inl ⟨hfits, hcost⟩
  · rw [if_neg fun h => hpos.1 h hfits]
    exact Or.inr ⟨hfits, rfl⟩

end Growth

theorem Costs.unique {limits : Limits Rat} {line : List (Instruction Rat)} {otherwise c d : Rat}
    (hc : Costs limits line otherwise c) (hd : Costs limits line otherwise d) : c = d := by
  rcases hc with ⟨hfits, rfl⟩ | ⟨hfits, rfl⟩
  · rcases hd with ⟨-, rfl⟩ | ⟨hfits', -⟩
    · rfl
    · exact absurd hfits' hfits
  · rcases hd with ⟨hfits', -⟩ | ⟨-, rfl⟩
    · exact absurd hfits hfits'
    · rfl

/-- A line goes on past what keeps to the width and leaves room. -/
theorem scanned_iff {limits : Limits Rat} (hpenalty : 0 < limits.penalty)
    (items rest : List (Instruction Rat)) :
    Scanned limits [] items rest ↔
      KeepsTo limits.width items ∧
        Everywhere (fun before j after => j.breakOpportunity = true →
          showsMore (after ++ rest) = true → HasRoom limits.width before j) items := by
  unfold Scanned KeepsTo
  rw [← Everywhere.and_iff]
  refine Everywhere.congr fun before j after => ?_
  show _ ∧ _ ↔ _
  rw [List.nil_append, Growth.not_stuck_of_iff, Growth.not_full_iff hpenalty]

theorem ending_iff {limits : Limits Rat} (hpenalty : 0 < limits.penalty)
    (front rest : List (Instruction Rat)) (i : Instruction Rat) (cost : Rat) :
    Ending limits front i rest cost ↔
      Scanned limits [] front (i :: rest) ∧ Growth.Ends limits front i rest ∧
        (Growth.of limits front).badnessAt limits i = cost := by
  have hpos := Growth.penaltyWith_pos_iff hpenalty front i
  rw [scanned_iff hpenalty]
  constructor
  · intro h
    have hcost := (Growth.badnessAt_of hpenalty).unique h.costs
    refine ⟨⟨h.keeps.of_append, h.room.mono fun _ _ _ hroom hb _ => hroom hb⟩, ?_, hcost⟩
    refine ⟨?_, h.opportunity, (showsMore_iff rest).2 h.shows, ?_, ?_⟩
    · rw [Growth.not_stuck_of_iff]
      exact (Everywhere.concat_iff.1 h.keeps).2
    · rw [hpos, hcost]
      by_cases hfits : FitsIn limits.width (front ++ [i])
      · exact Or.inr (h.tolerated hfits)
      · exact Or.inl hfits
    · rintro ⟨hafter, hd⟩
      obtain ⟨j, hj, hjd⟩ := (Growth.afterSpace_of limits front).1 hafter
      rw [h.firstSpace hd j hj] at hjd
      cases hjd
  · rintro ⟨⟨hkeeps, hroom⟩, hends, rfl⟩
    refine ⟨hends.opportunity, (showsMore_iff rest).1 hends.shows, fun hd j hj => ?_, ?_, ?_,
      Growth.badnessAt_of hpenalty, fun hfits => ?_⟩
    · rw [Bool.eq_false_iff]
      intro hjd
      exact hends.may.2 ⟨(Growth.afterSpace_of limits front).2 ⟨j, hj, hjd⟩, hd⟩
    · refine hroom.mono fun before j after hroom hb => hroom hb ?_
      rw [List.append_cons]
      exact showsMore_append hends.shows
    · exact hkeeps.concat ((Growth.not_stuck_of_iff limits front i).1 hends.fits)
    · rcases hends.may.1 with hpen | htolerated
      · exact absurd hfits (hpos.1 hpen)
      · exact htolerated

theorem allowed_iff {limits : Limits Rat} (hpenalty : 0 < limits.penalty)
    (items : List (Instruction Rat)) (s t : Nat) (cost : Rat) :
    Allowed limits items s t cost ↔
      ∃ b ∈ breaksFrom limits items s, b.next = t ∧ b.badness = cost ∧ t < items.length := by
  constructor
  · rintro ⟨front, i, spaces, next, more, hitems, hspaces, hnext, rfl, hending⟩
    obtain ⟨hscan, hends, hcost⟩ := (ending_iff hpenalty _ _ _ _).1 hending
    refine ⟨_, (mem_breaks_iff limits s [] (items.drop s) _).2
      ⟨front, i, _, hitems, hscan, hends, rfl⟩, ?_, hcost, ?_⟩
    · show s + front.length + 1 + leadingSpaces (spaces ++ next :: more) = _
      rw [leadingSpaces_append hspaces hnext]
    · have hlength := congrArg List.length hitems
      simp only [List.length_drop, List.length_append, List.length_cons] at hlength
      omega
  · rintro ⟨b, hb, rfl, rfl, -⟩
    obtain ⟨front, i, rest, hitems, hscan, hends, rfl⟩ :=
      (mem_breaks_iff limits s [] (items.drop s) b).1 hb
    obtain ⟨spaces, next, more, rfl, hspaces, hnext⟩ :=
      exists_next_of_shows ((showsMore_iff rest).1 hends.shows)
    refine ⟨front, i, spaces, next, more, hitems, hspaces, hnext, ?_,
      (ending_iff hpenalty _ _ _ _).2 ⟨hscan, hends, rfl⟩⟩
    show s + front.length + 1 + leadingSpaces (spaces ++ next :: more) = _
    rw [leadingSpaces_append hspaces hnext]

theorem lastLine_iff {limits : Limits Rat} (hpenalty : 0 < limits.penalty)
    (items : List (Instruction Rat)) (s : Nat) (cost : Rat) :
    LastLine limits items s cost ↔ endFrom limits items s = some cost := by
  have hroom : Everywhere (fun before j after => j.breakOpportunity = true →
        showsMore (after ++ []) = true → HasRoom limits.width before j) (items.drop s) ↔
      Everywhere (fun before j after => j.breakOpportunity = true →
        (∃ k ∈ after, k.isVisible = true) → HasRoom limits.width before j) (items.drop s) := by
    refine Everywhere.congr fun before j after => ?_
    rw [List.append_nil, showsMore_iff]
  have hend := toEnd_iff limits s [] (items.drop s) cost
  rw [scanned_iff hpenalty, hroom] at hend
  refine Iff.trans ?_ hend.symm
  constructor
  · intro h
    exact ⟨⟨h.keeps, h.room⟩, (Growth.penalty_of limits (items.drop s)).unique h.costs⟩
  · rintro ⟨⟨hkeeps, hroom⟩, rfl⟩
    exact ⟨hroom, hkeeps, Growth.penalty_of limits (items.drop s)⟩

/-! ## Chains are courses -/

theorem Path.badness_foldl (bs : List (Break Rat)) (p : Path Rat) :
    (bs.foldl Path.extend p).badness = p.badness + (Path.along bs).badness := by
  induction bs generalizing p with
  | nil => exact (add_zero p.badness).symm
  | cons b bs ih =>
    have halong : (Path.along (b :: bs)).badness = 0 + b.badness + (Path.along bs).badness := ih _
    rw [List.foldl_cons, ih, halong, zero_add, ← add_assoc]
    rfl

theorem Path.badness_along_cons (b : Break Rat) (bs : List (Break Rat)) :
    (Path.along (b :: bs)).badness = b.badness + (Path.along bs).badness := by
  have h : (Path.along (b :: bs)).badness = 0 + b.badness + (Path.along bs).badness :=
    Path.badness_foldl bs _
  rwa [zero_add] at h

theorem chain_iff {limits : Limits Rat} (hpenalty : 0 < limits.penalty)
    (items : List (Instruction Rat)) (s : Nat) (starts : List Nat) (cost : Rat) :
    Chain limits items s starts cost ↔
      ∃ bs t c, Course limits items s bs t ∧ endFrom limits items t = some c ∧
        starts = s :: bs.map Break.next ∧ cost = (Path.along bs).badness + c := by
  constructor
  · intro h
    induction h with
    | @last s cost h =>
      exact ⟨[], s, cost, .nil s, (lastLine_iff hpenalty _ _ _).1 h, rfl, (zero_add cost).symm⟩
    | @line s t starts cost others h _ ih =>
      obtain ⟨b, hb, rfl, rfl, hlt⟩ := (allowed_iff hpenalty _ _ _ _).1 h
      obtain ⟨bs, u, c, hbs, hc, rfl, rfl⟩ := ih
      refine ⟨b :: bs, u, c, .cons hb hlt hbs, hc, rfl, ?_⟩
      rw [Path.badness_along_cons, add_assoc]
  · rintro ⟨bs, t, c, hbs, hc, rfl, rfl⟩
    induction hbs with
    | nil s =>
      have hzero : (Path.along ([] : List (Break Rat))).badness + c = c := zero_add c
      rw [List.map_nil, hzero]
      exact .last ((lastLine_iff hpenalty _ _ _).2 hc)
    | @cons s t b bs hb hn _ ih =>
      rw [List.map_cons, Path.badness_along_cons, add_assoc]
      exact .line ((allowed_iff hpenalty _ _ _ _).2 ⟨b, hb, rfl, rfl, hn⟩) (ih hc)

/-- The search finds the starts of a chain with the least cost, exactly where there is a chain. -/
theorem findBreaks_optimal (limits : Limits Rat) (items : List (Instruction Rat))
    (hitems : items ≠ []) (hpenalty : 0 < limits.penalty) :
    ((∃ starts, findBreaks limits items = some starts) ↔
      ∃ starts cost, Chain limits items 0 starts cost) ∧
    ∀ starts, findBreaks limits items = some starts →
      ∃ cost, Chain limits items 0 starts cost ∧
        ∀ starts' cost', Chain limits items 0 starts' cost' → cost ≤ cost' := by
  have hleast : ∀ starts, findBreaks limits items = some starts →
      ∃ cost, Chain limits items 0 starts cost ∧
        ∀ starts' cost', Chain limits items 0 starts' cost' → cost ≤ cost' := by
    intro starts hfound
    obtain ⟨bs, s, c, hbs, hc, rfl, hmin⟩ := findBreaks_least hitems hfound
    refine ⟨_, (chain_iff hpenalty _ _ _ _).2 ⟨bs, s, c, hbs, hc, rfl, rfl⟩, ?_⟩
    intro starts' cost' hchain
    obtain ⟨bs', s', c', hbs', hc', -, rfl⟩ := (chain_iff hpenalty _ _ _ _).1 hchain
    exact hmin bs' s' c' hbs' hc'
  refine ⟨⟨?_, ?_⟩, hleast⟩
  · rintro ⟨starts, hfound⟩
    obtain ⟨cost, hchain, -⟩ := hleast starts hfound
    exact ⟨starts, cost, hchain⟩
  · rintro ⟨starts, cost, hchain⟩
    obtain ⟨bs, s, c, hbs, hc, -, -⟩ := (chain_iff hpenalty _ _ _ _).1 hchain
    exact findBreaks_exists hitems hbs hc

namespace Sample

/-- A column of two characters. -/
def limits : Limits Rat := { width := 12, tolerance := 25, penalty := 10000 }

end Sample

/-- The longer word is too wide for any line, and the search gives it one of its own. -/
theorem findBreaks_optimal_words :
    Sample.words ≠ [] ∧ (0 : Rat) < Sample.limits.penalty ∧
      findBreaks Sample.limits Sample.words = some [0, 2] ∧
      ∃ cost, Chain Sample.limits Sample.words 0 [0, 2] cost ∧
        ∀ starts' cost', Chain Sample.limits Sample.words 0 starts' cost' → cost ≤ cost' := by
  have hitems : Sample.words ≠ [] := by simp [Sample.words]
  have hpenalty : (0 : Rat) < Sample.limits.penalty := by decide +kernel
  have hfound : findBreaks Sample.limits Sample.words = some [0, 2] := by decide +kernel
  exact ⟨hitems, hpenalty, hfound,
    (findBreaks_optimal Sample.limits Sample.words hitems hpenalty).2 [0, 2] hfound⟩

end Paragraph
end Galley
