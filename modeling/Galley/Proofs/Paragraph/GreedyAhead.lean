import Galley.Proofs.Paragraph.Conservation
import Galley.Proofs.Paragraph.Optimality
import Galley.Proofs.Paragraph.SoftLine

/-
Greedy breaking stays ahead of every other way to break a paragraph.

What is still to come after some greedy lines is compared with what is still to come after as many
lines of a chain: it is the end of that, but for lost white space in front and for things that a
cut line has given back, which take no room and end no line (`Ahead`).  One line keeps this
(`ahead_greedyLine`), because a line of the chain leaves no room that a greedy line would not use.
By induction over the chain, as many greedy lines as the chain has hold all that is visible.
-/

namespace Galley
namespace Paragraph

variable {items rest line before after : List (Instruction Rat)} {width : Rat}

/-! ## What is visible on a line -/

/-- The visible instructions among these. -/
def shown (items : List (Instruction Rat)) : List (Instruction Rat) :=
  items.filter Instruction.isVisible

theorem shown_append (a b : List (Instruction Rat)) : shown (a ++ b) = shown a ++ shown b :=
  List.filter_append a b

theorem shown_eq_nil_iff : shown items = [] ↔ Blank items := by
  simp [shown, Blank]

theorem Kept.shown_eq {seen : Bool} (h : Kept seen items line) : shown line = shown items := by
  induction h with
  | nil => rfl
  | keep i _ ih =>
    unfold shown at ih ⊢
    rw [List.filter_cons, List.filter_cons, ih]
  | drop hd _ _ ih =>
    unfold shown at ih ⊢
    rw [List.filter_cons_of_neg (by simp [Instruction.not_isVisible_of_discardable hd]), ih]

/-! ## How far ahead -/

/-- Takes no room, and neither ends a line nor lets one end. -/
structure Instruction.Idle (i : Instruction Rat) : Prop where
  width : i.width = 0
  solid : i.discardable = false
  unbreakable : i.breakOpportunity = false
  unforced : i.isForcedBreak = false

theorem Instruction.Idle.blank {i : Instruction Rat} (h : i.Idle) : i.isVisible = false := by
  rw [Bool.eq_false_iff, ne_eq, isVisible_iff, solidWidth_of_not_discardable h.solid, h.width]
  exact lt_irrefl 0

theorem Instruction.Made.idle {i : Instruction Rat} (hmade : i.Made) (hw : 0 ≤ i.width)
    (hblank : i.isVisible = false) (hbreak : i.breakOpportunity = false)
    (hforced : i.isForcedBreak = false) : i.Idle := by
  have hsolid : i.discardable = false := hmade.not_discardable hbreak
  rw [Bool.eq_false_iff, ne_eq, isVisible_iff, solidWidth_of_not_discardable hsolid] at hblank
  exact ⟨le_antisymm (not_lt.1 hblank) hw, hsolid, hbreak, hforced⟩

/-- `rest` is an end of `items`, without some white space before its first visible instruction
and behind things that do not matter. -/
def Ahead (items rest : List (Instruction Rat)) : Prop :=
  ∃ idle core last, rest = idle ++ core ∧ (∀ i ∈ idle, i.Idle) ∧ last <:+ items ∧
    FrontTrimmed last core

theorem FrontTrimmed.ahead {last core : List (Instruction Rat)} (h : FrontTrimmed last core)
    (hlast : last <:+ items) : Ahead items core :=
  ⟨[], core, last, rfl, by simp, hlast, h⟩

namespace Ahead

theorem of_suffix (h : rest <:+ items) : Ahead items rest := (FrontTrimmed.same rest).ahead h

theorem refl (items : List (Instruction Rat)) : Ahead items items :=
  of_suffix (List.suffix_refl items)

theorem nil (items : List (Instruction Rat)) : Ahead items [] :=
  of_suffix (List.nil_suffix)

theorem idle_append {idle : List (Instruction Rat)} (h : Ahead items rest)
    (hidle : ∀ i ∈ idle, i.Idle) : Ahead items (idle ++ rest) := by
  obtain ⟨idle', core, last, rfl, hidle', hlast, hcore⟩ := h
  refine ⟨idle ++ idle', core, last, by simp, ?_, hlast, hcore⟩
  intro i hi
  rcases List.mem_append.1 hi with hi | hi
  · exact hidle i hi
  · exact hidle' i hi

/-- All that is left is idle or was there. -/
theorem mem (h : Ahead items rest) {i : Instruction Rat} (hi : i ∈ rest) : i.Idle ∨ i ∈ items := by
  obtain ⟨idle, core, last, rfl, hidle, hlast, hcore⟩ := h
  rcases List.mem_append.1 hi with hi | hi
  · exact Or.inl (hidle i hi)
  · exact Or.inr (hlast.subset (hcore.trimmed.sublist.subset hi))

theorem blank (h : Ahead items rest) (hitems : Blank items) : Blank rest := by
  intro i hi
  rcases h.mem hi with hidle | hi
  · exact hidle.blank
  · exact hitems i hi

/-- Where what there was is cut in two, so is what is left of it. -/
theorem split (h : Ahead (before ++ after) rest) :
    ∃ front back, rest = front ++ back ∧ Ahead before front ∧ Ahead after back := by
  obtain ⟨idle, core, last, rfl, hidle, ⟨gone, hlast⟩, hcore⟩ := h
  rcases List.append_eq_append_iff.1 hlast with ⟨part, rfl, rfl⟩ | ⟨gone', rfl, rfl⟩
  · obtain ⟨c₁, c₂, rfl, h₁, h₂⟩ := hcore.append_left
    exact ⟨idle ++ c₁, c₂, by simp, (h₁.ahead (List.suffix_append gone part)).idle_append hidle,
      h₂.ahead (List.suffix_refl after)⟩
  · exact ⟨[], idle ++ core, rfl, nil before,
      (hcore.ahead (List.suffix_append gone' last)).idle_append hidle⟩

theorem frontTrimmed {left : List (Instruction Rat)} (h : Ahead items left)
    (hrest : FrontTrimmed left rest) : Ahead items rest := by
  obtain ⟨idle, core, last, rfl, hidle, hlast, hcore⟩ := h
  obtain ⟨r₁, r₂, rfl, h₁, h₂⟩ := hrest.append_left
  refine ((hcore.trans h₂).ahead hlast).idle_append ?_
  exact fun i hi => hidle i (h₁.trimmed.sublist.subset hi)

theorem suffix {left : List (Instruction Rat)} (h : Ahead items left) (hrest : rest <:+ left) :
    Ahead items rest := by
  obtain ⟨gone, rfl⟩ := hrest
  obtain ⟨idle, core, last, heq, hidle, hlast, hcore⟩ := h
  rcases List.append_eq_append_iff.1 heq with ⟨idle₂, rfl, rfl⟩ | ⟨gone₂, rfl, rfl⟩
  · refine (hcore.ahead hlast).idle_append ?_
    exact fun i hi => hidle i (List.mem_append_right _ hi)
  · obtain ⟨l₁, l₂, rfl, -, h₂⟩ := hcore.split
    exact h₂.ahead ((List.suffix_append l₁ l₂).trans hlast)

theorem trans {left : List (Instruction Rat)} (h : Ahead items left) (hrest : Ahead left rest) :
    Ahead items rest := by
  obtain ⟨idle, core, last, rfl, hidle, hlast, hcore⟩ := hrest
  exact ((h.suffix hlast).frontTrimmed hcore).idle_append hidle

end Ahead

/-! ## Statements about every place -/

/-- A statement about every place is kept if less before and after a place, and idle things before
it, do it no harm. -/
theorem FrontTrimmed.everywhere {P : List (Instruction Rat) → Instruction Rat →
      List (Instruction Rat) → Prop} {last core : List (Instruction Rat)}
    (h : FrontTrimmed last core)
    (hless : ∀ front front' i back back', front ++ [i] ⊆ last → front'.Sublist front →
      back'.Sublist back → P front i back → P front' i back')
    (hall : Everywhere P last) : Everywhere P core := by
  induction h generalizing P with
  | same => exact hall
  | @keep i last core hi h ih =>
    obtain ⟨hfirst, hothers⟩ := Everywhere.cons_iff.1 hall
    refine Everywhere.cons_iff.2
      ⟨hless [] [] i last core (by simp) (List.Sublist.refl _) h.trimmed.sublist hfirst,
        ih ?_ hothers⟩
    intro front front' j back back' hsub hfront hback hj
    refine hless _ _ _ _ _ ?_ (hfront.cons_cons i) hback hj
    exact List.cons_subset_cons i hsub
  | @drop i last core hd h ih =>
    obtain ⟨-, hothers⟩ := Everywhere.cons_iff.1 hall
    apply ih
    · intro front front' j back back' hsub hfront hback hj
      exact hless _ _ _ _ _ (fun k hk => List.mem_cons_of_mem i (hsub hk)) hfront hback hj
    · intro front j back hlast
      refine hless (i :: front) front j back back ?_ (List.sublist_cons_self i front)
        (List.Sublist.refl _) (hothers front j back hlast)
      rw [hlast]
      intro k hk
      simp only [List.cons_append, List.mem_cons, List.mem_append] at hk ⊢
      tauto

theorem Ahead.everywhere {P : List (Instruction Rat) → Instruction Rat →
      List (Instruction Rat) → Prop} (h : Ahead items rest)
    (hless : ∀ front front' i back back', front ++ [i] ⊆ items → front'.Sublist front →
      back'.Sublist back → P front i back → P front' i back')
    (hidle : ∀ front i back, i.Idle → P front i back)
    (hmore : ∀ idle front i back, (∀ j ∈ idle, Instruction.Idle j) → P front i back →
      P (idle ++ front) i back)
    (hall : Everywhere P items) : Everywhere P rest := by
  obtain ⟨idle, core, last, rfl, hidles, ⟨gone, rfl⟩, hcore⟩ := h
  have hlast : Everywhere P last := by
    intro front i back heq
    refine hless (gone ++ front) front i back back ?_ (List.sublist_append_right gone front)
      (List.Sublist.refl _) ((Everywhere.append_iff.1 hall).2 front i back heq)
    rw [heq, List.append_assoc]
    intro k hk
    simp only [List.mem_append, List.mem_cons, List.not_mem_nil, or_false] at hk ⊢
    tauto
  refine Everywhere.append_iff.2 ⟨?_, ?_⟩
  · intro front i back heq
    exact hidle _ _ _ (hidles i (by rw [heq]; simp))
  · refine (hcore.everywhere ?_ hlast).mono fun front i back => hmore idle front i back hidles
    intro front front' i back back' hsub
    exact hless _ _ _ _ _ fun k hk => List.mem_append_right gone (hsub hk)

/-! ## Lines that a greedy line reaches the end of -/

/-- White space within the line fits, but for what the line ends with. -/
def SpaceFits (width : Rat) (line : List (Instruction Rat)) : Prop :=
  Everywhere (fun front i back => i.discardable = true →
    totalWidth (front ++ [i]) ≤ width + Scalar.epsilon ∨ ∀ j ∈ back, j.discardable = true) line

/-- A greedy line that starts with `line`, before `after`, holds all that is visible of `line`. -/
structure Reached (width : Rat) (line after : List (Instruction Rat)) : Prop where
  keeps : KeepsTo width line
  spaces : SpaceFits width line
  unforced : ∀ i ∈ line, i.isForcedBreak = false
  ends : Blank line ∨ (∃ i ∈ line.getLast?, i.breakOpportunity = true) ∨ Blank after

theorem totalWidth_idle {idle : List (Instruction Rat)} (h : ∀ i ∈ idle, i.Idle) :
    totalWidth idle = 0 := by
  rw [totalWidth_eq_sum]
  apply List.sum_eq_zero
  intro w hw
  obtain ⟨i, hi, rfl⟩ := List.mem_map.1 hw
  exact (h i hi).width

theorem KeepsTo.ahead (h : KeepsTo width items) (hw : ∀ i ∈ items, 0 ≤ i.width)
    (hrest : Ahead items rest) : KeepsTo width rest := by
  refine hrest.everywhere ?_ ?_ ?_ h
  · intro front front' i back back' hsub hfront _ hi hvisible
    rcases hi hvisible with hfits | hnone
    · left
      exact (totalWidth_le_of_sublist (hfront.append_right [i])
        fun j hj => hw j (hsub hj)).trans hfits
    · exact Or.inr fun j hj => hnone j (hfront.subset hj)
  · intro front i back hidle hvisible
    rw [hidle.blank] at hvisible
    cases hvisible
  · intro idle front i back hidle hi hvisible
    rcases hi hvisible with hfits | hnone
    · left
      rwa [List.append_assoc, totalWidth_append, totalWidth_idle hidle, zero_add]
    · right
      intro j hj
      rcases List.mem_append.1 hj with hj | hj
      · exact (hidle j hj).unbreakable
      · exact hnone j hj

theorem SpaceFits.ahead (h : SpaceFits width items) (hw : ∀ i ∈ items, 0 ≤ i.width)
    (hrest : Ahead items rest) : SpaceFits width rest := by
  refine hrest.everywhere ?_ ?_ ?_ h
  · intro front front' i back back' hsub hfront hback hi hd
    rcases hi hd with hfits | hnone
    · left
      exact (totalWidth_le_of_sublist (hfront.append_right [i])
        fun j hj => hw j (hsub hj)).trans hfits
    · exact Or.inr fun j hj => hnone j (hback.subset hj)
  · intro front i back hidle hd
    rw [hidle.solid] at hd
    cases hd
  · intro idle front i back hidle hi hd
    refine (hi hd).imp_left fun hfits => ?_
    rwa [List.append_assoc, totalWidth_append, totalWidth_idle hidle, zero_add]

/-- What is lost in front does not change what comes last, if anything visible is left. -/
theorem FrontTrimmed.getLast_or_blank {last core : List (Instruction Rat)}
    (h : FrontTrimmed last core) : Blank core ∨ core.getLast? = last.getLast? := by
  induction h with
  | same => exact Or.inr rfl
  | @keep i last core hi h ih =>
    rcases ih with hblank | heq
    · exact Or.inl (hblank.cons hi)
    · right
      rw [List.getLast?_cons, List.getLast?_cons, heq]
  | @drop i last core hd h ih =>
    rcases ih with hblank | heq
    · exact Or.inl hblank
    · cases last with
      | nil =>
        rw [List.getLast?_nil, List.getLast?_eq_none_iff] at heq
        rw [heq]
        exact Or.inl (by simp [Blank])
      | cons j last => exact Or.inr (by rw [heq, List.getLast?_cons_cons])

/-- Behind the last break opportunity of what there was, nothing visible is left. -/
theorem FrontTrimmed.blank_drop {last core : List (Instruction Rat)} (h : FrontTrimmed last core)
    {n : Nat} (hlast : ∃ i ∈ last.getLast?, i.breakOpportunity = true)
    (hdrop : ∀ i ∈ core.drop n, i.breakOpportunity = false) : Blank (core.drop n) := by
  rcases h.getLast_or_blank with hblank | heq
  · exact fun i hi => hblank i (List.mem_of_mem_drop hi)
  · intro i hi
    obtain ⟨e, he, hbreak⟩ := hlast
    have hlength := List.length_pos_of_mem hi
    rw [List.length_drop] at hlength
    have hend : (core.drop n).getLast? = some e := by
      rw [List.getLast?_drop, if_neg (by omega), heq]
      exact he
    rw [hdrop e (List.mem_of_getLast? hend)] at hbreak
    cases hbreak

theorem Ahead.getLast_or_blank (h : Ahead items rest) :
    Blank rest ∨ rest.getLast? = items.getLast? := by
  obtain ⟨idle, core, last, rfl, hidle, ⟨gone, rfl⟩, hcore⟩ := h
  have hidleBlank : Blank idle := fun i hi => (hidle i hi).blank
  rcases hcore.getLast_or_blank with hblank | heq
  · exact Or.inl (hidleBlank.append hblank)
  · cases core with
    | nil => exact Or.inl (by simpa using hidleBlank)
    | cons i core =>
      right
      have hlast : last ≠ [] := by
        rintro rfl
        simp at heq
      rw [List.getLast?_append_of_ne_nil _ (by simp), List.getLast?_append_of_ne_nil _ hlast, heq]

theorem Reached.ahead {line' after' : List (Instruction Rat)} (h : Reached width line after)
    (hw : ∀ i ∈ line, 0 ≤ i.width) (hline : Ahead line line') (hafter : Ahead after after') :
    Reached width line' after' where
  keeps := h.keeps.ahead hw hline
  spaces := h.spaces.ahead hw hline
  unforced := by
    intro i hi
    rcases hline.mem hi with hidle | hi
    · exact hidle.unforced
    · exact h.unforced i hi
  ends := by
    rcases hline.getLast_or_blank with hblank | heq
    · exact Or.inl hblank
    · rw [heq]
      exact h.ends.imp hline.blank (Or.imp id hafter.blank)

/-! ## One greedy line -/

theorem suffix_behind {passed space : List (Instruction Rat)} {i : Instruction Rat}
    (h : passed ++ i :: rest = space ++ after) (hi : i ∉ space) : i :: rest <:+ after := by
  rcases List.append_eq_append_iff.1 h with ⟨part, rfl, hrest⟩ | ⟨part, -, rfl⟩
  · cases part with
    | nil => exact ⟨[], hrest⟩
    | cons j part =>
      cases hrest
      exact absurd (by simp) hi
  · exact List.suffix_append part _

/-- A line that is closed before white space uses all of it up. -/
theorem Closed.behind_space {space : List (Instruction Rat)} {closed : Line Rat}
    (h : Closed line (space ++ after) closed rest) (hd : ∀ j ∈ space, j.discardable = true)
    (hf : ∀ j ∈ space, j.isForcedBreak = false) : rest <:+ after := by
  generalize hitems : space ++ after = items at h
  cases h with
  | atEnd => exact List.nil_suffix
  | @atBreak passed rest i _ hi =>
    have hnot : i ∉ space := by
      intro hmem
      rw [hf i hmem] at hi
      cases hi
    exact (List.suffix_cons i rest).trans (suffix_behind hitems.symm hnot)
  | @atOther passed rest i _ _ hi _ =>
    have hnot : i ∉ space := by
      intro hmem
      rw [hd i hmem] at hi
      cases hi
    exact suffix_behind hitems.symm hnot

variable {f : Filling Rat} {l : Line Rat}

/-- Within the line the filling only ends where nothing of the line is left but white space. -/
theorem FillEnd.ahead_within {front back : List (Instruction Rat)} {i : Instruction Rat}
    (h : FillEnd width f (some l) rest) (hrest : f.rest = i :: (back ++ after))
    (hfront : f.line.Sublist front) (hfill : FilledTo width f) (hcut : CutBehind f)
    (hw : ∀ j ∈ front, 0 ≤ j.width) (hline : Reached width (front ++ i :: back) after) :
    Ahead after rest := by
  have hfilled : f.filled + i.width ≤ totalWidth (front ++ [i]) := by
    rw [hfill.filled, totalWidth_concat]
    have := totalWidth_le_of_sublist hfront hw
    linarith
  have hunforced : i.isForcedBreak = false := hline.unforced i (by simp)
  cases h with
  | atEnd => exact Ahead.nil after
  | atBreak hf =>
    cases hrest
    rw [hunforced] at hf
    cases hf
  | @atCut line more filled c j hf ho =>
    cases hrest
    dsimp only at hfilled hcut hfront
    have hvisible : i.isVisible = true := (Instruction.isVisible_iff i).2 ho.1
    have hwide := ho.2
    rw [Instruction.solidWidth_of_not_discardable
      (Instruction.not_discardable_of_isVisible hvisible)] at hwide
    -- the line of the chain holds what overflows here, and cannot be cut before it
    rcases hline.keeps front i back rfl hvisible with hfits | hnone
    · linarith
    · obtain ⟨j, hj, hjb⟩ := hcut.opportunity c rfl
      rw [hnone j (hfront.subset hj)] at hjb
      cases hjb
  | @afterSpace line more rest filled cut j closed hf hd hwide hz hc =>
    cases hrest
    dsimp only at hfilled
    rcases hline.spaces front i back rfl hd with hfits | hspace
    · linarith
    · refine Ahead.of_suffix (hc.behind_space hspace fun j hj => ?_)
      exact hline.unforced j (by simp [hj])

/-- Past the line the filling leaves an end of what comes after, or is cut within the line and
gives back what does not matter. -/
theorem FillEnd.ahead_past {more : List (Instruction Rat)} (h : FillEnd width f (some l) rest)
    (hafter : after = more ++ f.rest) (hfront : FrontTrimmed (line ++ more) f.line)
    (hcut : CutBehind f) (hmade : ∀ j ∈ f.line ++ f.rest, j.Made)
    (hw : ∀ j ∈ f.line, 0 ≤ j.width) (hunforced : ∀ j ∈ f.line, j.isForcedBreak = false)
    (hends : Blank line ∨ (∃ i ∈ line.getLast?, i.breakOpportunity = true) ∨ Blank after) :
    Ahead after rest := by
  cases h with
  | atEnd => exact Ahead.nil after
  | @atBreak held rest filled cut i hf =>
    apply Ahead.of_suffix
    rw [hafter]
    exact (List.suffix_cons i rest).trans (List.suffix_append more _)
  | @atCut held behind filled c i hf ho =>
    obtain ⟨h₁, h₂, rfl, hfirst, hsecond⟩ := hfront.append_left
    have hback : Ahead after (h₂ ++ i :: behind) := by
      rw [hafter]
      exact (hsecond.append_right _).ahead (List.suffix_refl _)
    dsimp only at hcut hmade hw hunforced
    have hcarried : ∀ j ∈ h₁.drop c, j.breakOpportunity = false := by
      intro j hj
      apply hcut.carried
      show j ∈ (h₁ ++ h₂).drop c
      rw [List.drop_append]
      exact List.mem_append_left _ hj
    have hblank : Blank (h₁.drop c) := by
      rcases hends with hline | hlast | hafterBlank
      · exact fun j hj => hline j (hfirst.trimmed.sublist.subset (List.mem_of_mem_drop hj))
      · exact hfirst.blank_drop hlast hcarried
      · have hvisible : i.isVisible = true := (Instruction.isVisible_iff i).2 ho.1
        rw [hafterBlank i (by rw [hafter]; simp)] at hvisible
        cases hvisible
    have hidle : ∀ j ∈ h₁.drop c, j.Idle := by
      intro j hj
      have hmem : j ∈ h₁ ++ h₂ := List.mem_append_left _ (List.mem_of_mem_drop hj)
      exact (hmade j (List.mem_append_left _ hmem)).idle (hw j hmem) (hblank j hj)
        (hcarried j hj) (hunforced j hmem)
    have hrest : (h₁ ++ h₂).drop c ++ i :: behind =
        h₁.drop c ++ (h₂.drop (c - h₁.length) ++ i :: behind) := by
      rw [List.drop_append, List.append_assoc]
    rw [hrest]
    refine (hback.suffix ⟨h₂.take (c - h₁.length), ?_⟩).idle_append hidle
    rw [← List.append_assoc, List.take_append_drop]
  | @afterSpace held more' rest filled cut i closed hf hd hwide hz hc =>
    obtain ⟨passed, hpassed, -, -⟩ :=
      hc.split fun j hj => hmade j (List.mem_append_right _ (List.mem_cons_of_mem i hj))
    apply Ahead.of_suffix
    rw [hafter, hpassed]
    exact ((List.suffix_append passed rest).trans (List.suffix_cons i _)).trans
      (List.suffix_append more _)

theorem ahead_greedyLine (hmade : ∀ i ∈ line ++ after, i.Made)
    (hw : ∀ i ∈ line ++ after, 0 ≤ i.width) (hline : Reached width line after)
    (h : greedyLine width (line ++ after) = (.ok (some l), rest)) : Ahead after rest := by
  obtain ⟨f, hsteps, hend⟩ := FillRun.of_greedyLine h
  obtain ⟨consumed, hitems, hfront⟩ := ((account_start _).run hw hsteps).taken
  have hfill := (filledTo_start width _).run hsteps
  have hcut := (cutBehind_start _).run hsteps
  have hunforced := ((unbroken_start _).run hsteps).line
  have hsub : ∀ i ∈ f.line ++ f.rest, i ∈ line ++ after :=
    fun i hi => subset_of_fillSteps hsteps hi
  have hpast (more : List (Instruction Rat)) (hafter : after = more ++ f.rest)
      (hconsumed : consumed = line ++ more) : Ahead after rest := by
    subst hconsumed
    exact hend.ahead_past hafter hfront hcut (fun i hi => hmade i (hsub i hi))
      (fun i hi => hw i (hsub i (List.mem_append_left _ hi))) hunforced hline.ends
  rcases List.append_eq_append_iff.1 hitems with ⟨more, hconsumed, hafter⟩ | ⟨back, hback, hrest⟩
  · exact hpast more hafter hconsumed
  · cases back with
    | nil => exact hpast [] (by simpa using hrest.symm) (by simpa using hback.symm)
    | cons i back =>
      subst hback
      refine hend.ahead_within hrest hfront.trimmed.sublist hfill hcut ?_ hline
      exact fun j hj => hw j (by simp [hj])

/-- What is visible is on the line or still to come. -/
theorem shown_greedyLine (hmade : ∀ i ∈ items, i.Made) (hw : ∀ i ∈ items, 0 ≤ i.width)
    (h : greedyLine width items = (.ok (some l), rest)) :
    shown items = shown l.instructions ++ shown rest := by
  obtain ⟨segment, left, rfl, -, hsegment, hleft⟩ := greedyLine_segment hmade hw h
  rw [shown_append, hsegment.shown_eq, hleft.trimmed.shown_eq]

/-! ## Lines of a chain -/

variable {limits : Limits Rat} {s t : Nat} {cost : Rat}

theorem unforced_of_drop (hforced : ∀ i ∈ items.dropLast, i.isForcedBreak = false)
    (hitems : items.drop s = line ++ after) (hafter : after ≠ []) :
    ∀ i ∈ line, i.isForcedBreak = false := by
  intro i hi
  apply hforced
  rw [← List.take_append_drop s items, hitems, ← List.append_assoc,
    List.dropLast_append_of_ne_nil hafter]
  simp [hi]

theorem Allowed.reached (h : Allowed limits items s t cost) (hmade : ∀ i ∈ items, i.Made)
    (hforced : ∀ i ∈ items.dropLast, i.isForcedBreak = false) :
    ∃ line, items.drop s = line ++ items.drop t ∧ Reached limits.width line (items.drop t) := by
  obtain ⟨front, i, spaces, next, more, hitems, hspaces, hnext, rfl, hending⟩ := h
  have hline : items.drop s = (front ++ i :: spaces) ++ next :: more := by simp [hitems]
  have hmem : ∀ j ∈ front ++ i :: spaces, j ∈ items := fun j hj =>
    List.mem_of_mem_drop (by rw [hline]; exact List.mem_append_left _ hj)
  rw [drop_of_break hitems]
  refine ⟨front ++ i :: spaces, hline, ?_, ?_, ?_, Or.inr (Or.inl ?_)⟩
  · rw [List.append_cons]
    exact hending.keeps.append_blank (blank_of_discardable hspaces)
  · -- white space in front leaves room; behind that comes nothing else
    refine Everywhere.append_iff.2 ⟨?_, Everywhere.cons_iff.2 ⟨fun _ => Or.inr hspaces, ?_⟩⟩
    · intro before j behind heq hd
      have hj : j.Made := hmade j (hmem j (by rw [heq]; simp))
      exact Or.inl (hending.room before j behind heq (hj.breakOpportunity hd)).1
    · intro before j behind heq _
      exact Or.inr fun k hk => hspaces k (by rw [heq]; simp [hk])
  · exact unforced_of_drop hforced hline (by simp)
  · have hspace : ∀ j ∈ spaces.getLast?, j.breakOpportunity = true := by
      intro j hj
      have hj := List.mem_of_getLast? hj
      exact (hmade j (hmem j (by simp [hj]))).breakOpportunity (hspaces j hj)
    rw [List.getLast?_append_of_ne_nil _ (by simp), List.getLast?_cons]
    cases hlast : spaces.getLast? with
    | none => exact ⟨i, rfl, hending.opportunity⟩
    | some j => exact ⟨j, rfl, hspace j hlast⟩

theorem last_visible (items : List (Instruction Rat)) :
    Blank items ∨
      ∃ front i after, items = front ++ i :: after ∧ i.isVisible = true ∧ Blank after := by
  induction items with
  | nil => exact Or.inl (by simp [Blank])
  | cons i items ih =>
    rcases ih with hblank | ⟨front, j, after, rfl, hj, hblank⟩
    · cases hi : i.isVisible with
      | true => exact Or.inr ⟨[], i, items, rfl, hi, hblank⟩
      | false => exact Or.inl (hblank.cons hi)
    · exact Or.inr ⟨i :: front, j, after, rfl, hj, hblank⟩

theorem LastLine.reached (h : LastLine limits items s cost) (hmade : ∀ i ∈ items, i.Made)
    (hforced : ∀ i ∈ items.dropLast, i.isForcedBreak = false) :
    ∃ line after, items.drop s = line ++ after ∧ Blank after ∧
      Reached limits.width line after := by
  rcases last_visible (items.drop s) with hblank | ⟨front, i, after, hitems, hi, hblank⟩
  · exact ⟨[], items.drop s, rfl, hblank, Everywhere.nil, Everywhere.nil, by simp,
      Or.inl (by simp [Blank])⟩
  · have hline : items.drop s = (front ++ [i]) ++ after := by simp [hitems]
    have hmem : ∀ j ∈ front ++ [i], j ∈ items := fun j hj =>
      List.mem_of_mem_drop (by rw [hline]; exact List.mem_append_left _ hj)
    have hkeeps := h.keeps
    rw [hline] at hkeeps
    refine ⟨front ++ [i], after, hline, hblank, hkeeps.of_append, ?_, ?_, Or.inr (Or.inr hblank)⟩
    · refine Everywhere.concat_iff.2 ⟨?_, fun _ => Or.inr (by simp)⟩
      intro before j behind heq hd
      have hj : j.Made := hmade j (hmem j (by rw [heq]; simp))
      left
      refine (h.room before j (behind ++ i :: after) ?_ (hj.breakOpportunity hd)
        ⟨i, by simp, hi⟩).1
      rw [hitems, heq]
      simp
    · intro j hj
      rcases List.mem_append.1 hj with hj | hj
      · exact unforced_of_drop hforced hitems (by simp) j hj
      · rw [List.mem_singleton.1 hj, Bool.eq_false_iff]
        intro hf
        rw [Instruction.not_isVisible_of_marker (hmade i (hmem i (by simp)))
          (Instruction.isMarker_of_isForcedBreak hf)] at hi
        cases hi

/-! ## All greedy lines -/

/-- What is visible on the lines. -/
def shownOn (lines : List (Line Rat)) : List (Instruction Rat) :=
  lines.flatMap fun l => shown l.instructions

theorem shownOn_greedyLines (width : Rat) (hmade : ∀ i ∈ items, i.Made)
    (hw : ∀ i ∈ items, 0 ≤ i.width) : shownOn (greedyLines width items) = shown items := by
  induction hn : items.length using Nat.strong_induction_on generalizing items with
  | _ n ih =>
    rcases greedyLines_cases width items with ⟨_, hnone, hlines⟩ | ⟨l, rest, hsome, hlt, hlines⟩
    · have hfront := greedyLine_nothing hw hnone
      rw [hlines, ← hfront.trimmed.shown_eq]
      rfl
    · have hsub := greedyLine_subset hsome
      rw [hlines, shown_greedyLine hmade hw hsome,
        ← ih rest.length (by omega) (fun i hi => hmade i (hsub hi))
          (fun i hi => hw i (hsub hi)) rfl]
      rfl

/-- A greedy line taken from where a line of the chain starts, or from ahead of there, leads to
where the next starts, or ahead of there. -/
theorem Reached.next (hline : Reached width line after) (hmade : ∀ i ∈ rest, i.Made)
    (hw : ∀ i ∈ rest, 0 ≤ i.width) (hwLine : ∀ i ∈ line, 0 ≤ i.width)
    (hrest : Ahead (line ++ after) rest) {more : List (Instruction Rat)}
    (h : greedyLine width rest = (.ok (some l), more)) : Ahead after more := by
  obtain ⟨front, back, rfl, hfront, hback⟩ := hrest.split
  exact hback.trans (ahead_greedyLine hmade hw (hline.ahead hwLine hfront hback) h)

theorem Chain.shownOn_take {starts : List Nat} (h : Chain limits items s starts cost)
    (hmade : ∀ i ∈ items, i.Made) (hw : ∀ i ∈ items, 0 ≤ i.width)
    (hforced : ∀ i ∈ items.dropLast, i.isForcedBreak = false)
    (hrest : Ahead (items.drop s) rest) (hmadeRest : ∀ i ∈ rest, i.Made)
    (hwRest : ∀ i ∈ rest, 0 ≤ i.width) :
    shownOn ((greedyLines limits.width rest).take starts.length) = shown rest := by
  have hwLine {s : Nat} {line after : List (Instruction Rat)}
      (hitems : items.drop s = line ++ after) : ∀ i ∈ line, 0 ≤ i.width := fun i hi =>
    hw i (List.mem_of_mem_drop (by rw [hitems]; exact List.mem_append_left _ hi))
  induction h generalizing rest with
  | @last s cost h =>
    rcases greedyLines_cases limits.width rest with
      ⟨_, hnone, hlines⟩ | ⟨l, more, hsome, -, hlines⟩
    · rw [hlines, ← (greedyLine_nothing hwRest hnone).trimmed.shown_eq]
      rfl
    · obtain ⟨line, after, hitems, hblank, hline⟩ := h.reached hmade hforced
      rw [hitems] at hrest
      have hmore : Ahead after more :=
        hline.next hmadeRest hwRest (hwLine hitems) hrest hsome
      rw [hlines, shown_greedyLine hmadeRest hwRest hsome,
        shown_eq_nil_iff.2 (hmore.blank hblank)]
      rfl
  | @line s t starts cost others h _ ih =>
    rcases greedyLines_cases limits.width rest with
      ⟨_, hnone, hlines⟩ | ⟨l, more, hsome, -, hlines⟩
    · rw [hlines, ← (greedyLine_nothing hwRest hnone).trimmed.shown_eq]
      rfl
    · obtain ⟨line, hitems, hline⟩ := h.reached hmade hforced
      rw [hitems] at hrest
      have hmore : Ahead (items.drop t) more :=
        hline.next hmadeRest hwRest (hwLine hitems) hrest hsome
      have hsub := greedyLine_subset hsome
      rw [hlines, shown_greedyLine hmadeRest hwRest hsome,
        ← ih hmore (fun i hi => hmadeRest i (hsub hi)) fun i hi => hwRest i (hsub hi)]
      rfl

/-- As many greedy lines as the search finds starts hold all that is visible, so no more of them
than that show anything. -/
theorem greedy_lines_minimal (limits : Limits Rat) (items : List (Instruction Rat))
    (hmade : ∀ i ∈ items, i.Made) (hw : ∀ i ∈ items, 0 ≤ i.width)
    (hforced : ∀ i ∈ items.dropLast, i.isForcedBreak = false) (hpenalty : 0 < limits.penalty)
    {starts : List Nat} (hfound : findBreaks limits items = some starts) :
    shownOn ((greedyLines limits.width items).take starts.length) = shown items ∧
      (greedyLines limits.width items).countP (fun l => showsMore l.instructions) ≤
        starts.length := by
  obtain ⟨bs, s, c, hbs, hc, rfl⟩ := findBreaks_sound hfound
  have hchain := (chain_iff hpenalty items 0 _ _).2 ⟨bs, s, c, hbs, hc, rfl, rfl⟩
  have htake := hchain.shownOn_take hmade hw hforced (Ahead.refl items) hmade hw
  refine ⟨htake, ?_⟩
  generalize (0 :: bs.map Break.next).length = m at htake ⊢
  -- nothing is left for the lines behind
  have hall := shownOn_greedyLines limits.width hmade hw
  rw [← List.take_append_drop m (greedyLines limits.width items)] at hall ⊢
  have hdrop : shownOn ((greedyLines limits.width items).drop m) = [] := by
    unfold shownOn at hall htake ⊢
    rw [List.flatMap_append, htake] at hall
    exact List.append_right_eq_self.1 hall
  have hnone : ((greedyLines limits.width items).drop m).countP
      (fun l => showsMore l.instructions) = 0 := by
    rw [List.countP_eq_zero]
    intro l hl hshows
    obtain ⟨i, hi, hvisible⟩ := (showsMore_iff l.instructions).1 hshows
    have hblank := shown_eq_nil_iff.1 (List.flatMap_eq_nil_iff.1 hdrop l hl)
    rw [hblank i hi] at hvisible
    cases hvisible
  rw [List.countP_append, hnone, add_zero]
  exact List.countP_le_length.trans (List.length_take_le m _)

/-- Two words that need a line each. -/
theorem greedy_lines_minimal_words :
    (∀ i ∈ Sample.words, i.Made) ∧ (∀ i ∈ Sample.words, 0 ≤ i.width) ∧
      (∀ i ∈ Sample.words.dropLast, i.isForcedBreak = false) ∧
      (0 : Rat) < Sample.limits.penalty ∧ findBreaks Sample.limits Sample.words = some [0, 2] ∧
      shownOn ((greedyLines Sample.limits.width Sample.words).take 2) = shown Sample.words ∧
      (greedyLines Sample.limits.width Sample.words).countP
        (fun l => showsMore l.instructions) ≤ 2 := by
  have hforced : ∀ i ∈ Sample.words.dropLast, i.isForcedBreak = false := by decide +kernel
  have hpenalty : (0 : Rat) < Sample.limits.penalty := by decide +kernel
  have hfound : findBreaks Sample.limits Sample.words = some [0, 2] := by decide +kernel
  exact ⟨Sample.words_made, Sample.words_nonneg, hforced, hpenalty, hfound,
    greedy_lines_minimal Sample.limits Sample.words Sample.words_made Sample.words_nonneg hforced
      hpenalty hfound⟩

end Paragraph
end Galley
