import Galley.Proofs.Paragraph.LineStarts
import Galley.Proofs.Paragraph.Measured

/-
Where lines end.

A line ends hard where a forced break or the end of the text ends it, and soft anywhere else.  Each
forced break stands on one line and ends it: one greedy line takes in at most one of them, as the
last thing (`LineBreaks`), and a paragraph, which ends with the only one that it has, is cut in
front of things that come before it.

`Ended` says so of the lines of any list (`ended_linesOf`), and is put together from paragraph to
paragraph.
-/

namespace Galley
namespace Paragraph

variable {α : Type}

/-- The forced breaks among these, in order. -/
def forcedBreaks (items : List (Instruction α)) : List (Instruction α) :=
  items.filter Instruction.isForcedBreak

/-- Nothing comes behind a forced break. -/
def BreaksLast (items : List (Instruction α)) : Prop :=
  items.Pairwise fun i _ => i.isForcedBreak = false

theorem forcedBreaks_append (items more : List (Instruction α)) :
    forcedBreaks (items ++ more) = forcedBreaks items ++ forcedBreaks more :=
  List.filter_append items more

theorem forcedBreaks_eq_nil {items : List (Instruction α)} :
    forcedBreaks items = [] ↔ ∀ i ∈ items, i.isForcedBreak = false := by
  simp [forcedBreaks, List.filter_eq_nil_iff]

theorem forcedBreaks_cons_of_not {i : Instruction α} (items : List (Instruction α))
    (hi : i.isForcedBreak = false) : forcedBreaks (i :: items) = forcedBreaks items :=
  List.filter_cons_of_neg (by simp [hi])

theorem forcedBreaks_ne_nil_of_endsForced {items : List (Instruction α)}
    (h : endsForced items = true) : forcedBreaks items ≠ [] := by
  unfold endsForced at h
  rw [Option.any_eq_true] at h
  obtain ⟨i, hlast, hi⟩ := h
  exact List.ne_nil_of_mem (List.mem_filter.2 ⟨List.mem_of_getLast? hlast, hi⟩)

namespace BreaksLast

theorem of_forall {items : List (Instruction α)} (h : ∀ i ∈ items, i.isForcedBreak = false) :
    BreaksLast items := by
  refine List.pairwise_iff_forall_sublist.2 fun {i j} hij => ?_
  exact h i (hij.subset (by simp))

theorem singleton (i : Instruction α) : BreaksLast [i] := List.pairwise_singleton _ i

theorem concat {items : List (Instruction α)} (h : ∀ i ∈ items, i.isForcedBreak = false)
    (i : Instruction α) : BreaksLast (items ++ [i]) :=
  List.pairwise_append.2 ⟨of_forall h, List.pairwise_singleton _ i, fun j hj _ _ => h j hj⟩

theorem sublist {items line : List (Instruction α)} (h : BreaksLast items)
    (hs : line.Sublist items) : BreaksLast line :=
  List.Pairwise.sublist hs h

/-- Only the last piece of such a list can hold a forced break. -/
theorem front {items more : List (Instruction α)} (h : BreaksLast (items ++ more))
    (hmore : more ≠ []) : ∀ i ∈ items, i.isForcedBreak = false := by
  obtain ⟨j, more, rfl⟩ := List.exists_cons_of_ne_nil hmore
  intro i hi
  exact (List.pairwise_append.1 h).2.2 i hi j List.mem_cons_self

theorem at_forced {front back : List (Instruction α)} {i : Instruction α}
    (h : BreaksLast (front ++ i :: back)) (hi : i.isForcedBreak = true) :
    forcedBreaks front = [] ∧ back = [] := by
  refine ⟨forcedBreaks_eq_nil.2 (h.front (List.cons_ne_nil i back)), ?_⟩
  by_contra hback
  rw [List.append_cons] at h
  rw [h.front hback i (by simp)] at hi
  cases hi

end BreaksLast

/-! ## Trimming keeps forced breaks -/

variable [Scalar α]

/-- A forced break is no white space. -/
theorem forcedBreaks_solidPart {items : List (Instruction α)} (hmade : ∀ i ∈ items, i.Made) :
    forcedBreaks (solidPart items) = forcedBreaks items := by
  unfold forcedBreaks solidPart
  rw [List.filter_filter]
  refine List.filter_congr fun i hi => ?_
  cases hf : i.isForcedBreak with
  | false => rfl
  | true =>
    rw [((hmade i hi).marker (Instruction.isMarker_of_isForcedBreak hf)).2]
    rfl

theorem forcedBreaks_trim {items : List (Instruction α)} (hmade : ∀ i ∈ items, i.Made) :
    forcedBreaks (Line.trim items) = forcedBreaks items := by
  obtain ⟨body, tail, rfl, htrim, -⟩ := trim_split items
  rw [htrim, forcedBreaks_append, forcedBreaks_append,
    forcedBreaks_solidPart fun i hi => hmade i (List.mem_append_right body hi)]

/-! ## One line -/

/-- `LineBreaks items line rest`: the line that is taken from `items`, which leaves `rest`, ends
with the first forced break, or has none. -/
structure LineBreaks (items : List (Instruction α)) (line : Line α)
    (rest : List (Instruction α)) : Prop where
  ends : BreaksLast line.instructions
  page : line.pageBreak = line.instructions.any Instruction.isPageBreak
  split : forcedBreaks items = forcedBreaks line.instructions ++ forcedBreaks rest
  hard : line.hardBreak = true → forcedBreaks line.instructions ≠ [] ∨ rest = []
  soft : line.hardBreak = false → forcedBreaks line.instructions = []
  tail : rest = [] ∨ rest.getLast? = items.getLast?

namespace LineBreaks

variable {items rest passed built : List (Instruction α)} {line : Line α} {i : Instruction α}

/-- A line without a forced break. -/
theorem unbroken {hard : Bool} (hmade : ∀ j ∈ built, j.Made)
    (hbuilt : ∀ j ∈ built, j.isForcedBreak = false)
    (hsplit : forcedBreaks items = forcedBreaks rest) (hhard : hard = true → rest = [])
    (htail : rest = [] ∨ rest.getLast? = items.getLast?) :
    LineBreaks items (.ofInstructions built hard) rest := by
  have hkept : forcedBreaks (Line.ofInstructions built hard).instructions = [] :=
    (forcedBreaks_trim hmade).trans (forcedBreaks_eq_nil.2 hbuilt)
  refine ⟨(BreaksLast.of_forall hbuilt).sublist (trim_sublist built), rfl, ?_, ?_,
    fun _ => hkept, htail⟩
  · rw [hkept, hsplit]
    rfl
  · exact fun h => Or.inr (hhard h)

/-- A line that takes in a forced break. -/
theorem broken (hmade : ∀ j ∈ built ++ [i], j.Made)
    (hbuilt : ∀ j ∈ built, j.isForcedBreak = false)
    (hpassed : ∀ j ∈ passed, j.isForcedBreak = false) (hi : i.isForcedBreak = true) :
    LineBreaks (passed ++ i :: rest) (.ofInstructions (built ++ [i]) true) rest := by
  have hsingle : forcedBreaks [i] = [i] := by simp [forcedBreaks, hi]
  have hkept : forcedBreaks (Line.ofInstructions (built ++ [i]) true).instructions = [i] := by
    refine (forcedBreaks_trim hmade).trans ?_
    rw [forcedBreaks_append, forcedBreaks_eq_nil.2 hbuilt, hsingle]
    rfl
  refine ⟨(BreaksLast.concat hbuilt i).sublist (trim_sublist _), rfl, ?_,
    fun _ => Or.inl ?_, ?_, ?_⟩
  · rw [hkept, List.append_cons, forcedBreaks_append, forcedBreaks_append,
      forcedBreaks_eq_nil.2 hpassed, hsingle]
    rfl
  · rw [hkept]
    simp
  · intro hsoft
    cases hsoft
  · cases rest with
    | nil => exact Or.inl rfl
    | cons j rest =>
      right
      rw [List.getLast?_append_cons, List.getLast?_cons_cons]

omit [Scalar α] in
/-- What comes in front of the list and is no forced break leaves all of it as it is. -/
theorem behind (h : LineBreaks items line rest)
    (hpassed : ∀ j ∈ passed, j.isForcedBreak = false) :
    LineBreaks (passed ++ items) line rest := by
  refine ⟨h.ends, h.page, ?_, h.hard, h.soft, ?_⟩
  · rw [forcedBreaks_append, forcedBreaks_eq_nil.2 hpassed]
    exact h.split
  · rcases h.tail with hrest | hlast
    · exact Or.inl hrest
    · cases items with
      | nil => exact Or.inl (List.getLast?_eq_none_iff.1 hlast)
      | cons i items =>
        right
        rw [List.getLast?_append_cons]
        exact hlast

end LineBreaks

theorem Closed.lineBreaks {line items rest : List (Instruction α)} {closed : Line α}
    (h : Closed line items closed rest) (hmade : ∀ i ∈ line ++ items, i.Made)
    (hline : ∀ i ∈ line, i.isForcedBreak = false) : LineBreaks items closed rest := by
  -- what goes by while the line waits is no forced break
  have hunforced {passed : List (Instruction α)} (hp : ∀ i ∈ passed, i.Passes) :
      ∀ i ∈ line ++ solidPart passed, i.isForcedBreak = false := by
    intro i hi
    rcases List.mem_append.1 hi with hi | hi
    · exact hline i hi
    · exact (hp i (List.mem_of_mem_filter hi)).1
  cases h with
  | atEnd hp =>
    refine .unbroken (fun i hi => hmade i ?_) (hunforced hp) ?_ (fun _ => rfl) (Or.inl rfl)
    · exact (List.Sublist.refl line).append List.filter_sublist |>.subset hi
    · exact forcedBreaks_eq_nil.2 fun i hi => (hp i hi).1
  | @atBreak passed rest i hp hi =>
    refine .broken (fun j hj => hmade j ?_) (hunforced hp) (fun j hj => (hp j hj).1) hi
    rw [List.append_assoc] at hj
    refine ((List.Sublist.refl line).append ?_).subset hj
    exact List.filter_sublist.append ((List.nil_sublist rest).cons_cons i)
  | @atOther passed rest i hp hf hd hc =>
    refine .unbroken (fun j hj => hmade j ?_) (hunforced hp) ?_ (fun hhard => by cases hhard) ?_
    · refine ((List.Sublist.refl line).append ?_).subset hj
      exact List.filter_sublist.trans (List.sublist_append_left passed (i :: rest))
    · rw [forcedBreaks_append, forcedBreaks_eq_nil.2 fun j hj => (hp j hj).1]
      rfl
    · exact Or.inr (List.getLast?_append_cons passed i rest).symm

theorem FillEnd.lineBreaks {width : α} {f : Filling α} {l : Line α}
    {rest : List (Instruction α)} (h : FillEnd width f (some l) rest)
    (hmade : ∀ i ∈ f.line ++ f.rest, i.Made) (hline : ∀ i ∈ f.line, i.isForcedBreak = false) :
    LineBreaks f.rest l rest := by
  cases h with
  | atEnd =>
    exact .unbroken (fun i hi => hmade i (List.mem_append_left _ hi)) hline rfl (fun _ => rfl)
      (Or.inl rfl)
  | @atBreak line rest filled cut i hf =>
    have hbuilt : ∀ j ∈ line ++ [i], j.Made := by
      intro j hj
      refine hmade j (((List.Sublist.refl line).append ?_).subset hj)
      exact (List.nil_sublist rest).cons_cons i
    have hnone : ∀ j ∈ ([] : List (Instruction α)), j.isForcedBreak = false := by simp
    exact LineBreaks.broken hbuilt hline hnone hf
  | @atCut line rest filled cut i hf ho =>
    refine .unbroken (fun j hj => hmade j (List.mem_append_left _ (List.mem_of_mem_take hj)))
      (fun j hj => hline j (List.mem_of_mem_take hj)) ?_ (fun hhard => by cases hhard) ?_
    · rw [forcedBreaks_append, forcedBreaks_eq_nil.2 fun j hj => hline j (List.mem_of_mem_drop hj)]
      rfl
    · exact Or.inr (List.getLast?_append_cons (line.drop cut) i rest)
  | @afterSpace line items rest filled cut i closed hf hd hw hz hc =>
    have hmade' : ∀ j ∈ line ++ items, j.Made := by
      intro j hj
      refine hmade j (((List.Sublist.refl line).append ?_).subset hj)
      exact List.sublist_cons_self i items
    have hpassed : ∀ j ∈ [i], j.isForcedBreak = false := by simpa using hf
    exact (hc.lineBreaks hmade' hline).behind hpassed

theorem lineBreaks_greedyLine {width : α} {items rest : List (Instruction α)} {l : Line α}
    (hmade : ∀ i ∈ items, i.Made) (h : greedyLine width items = (.ok (some l), rest)) :
    LineBreaks items l rest := by
  obtain ⟨f, hsteps, hend⟩ := FillRun.of_greedyLine h
  obtain ⟨passed, hitems, hpassed⟩ := passed_of_fillSteps hsteps
  have hf := (unbroken_start items).run hsteps
  rw [hitems]
  refine (hend.lineBreaks (fun i hi => ?_) hf.line).behind hpassed
  exact hmade i (subset_of_fillSteps hsteps hi)

/-! ## The lines of a list -/

/-- There is at most one forced break, and nothing comes behind it but, perhaps, a strut. -/
def EndsAtBreak (fonts : Font.FontService α) (items : List (Instruction α)) : Prop :=
  Everywhere (fun front i back => i.isForcedBreak = true →
    forcedBreaks front = [] ∧ (back = [] ∨ ∃ room state, back = [.strut room state fonts])) items

theorem BreaksLast.endsAtBreak {items : List (Instruction α)} (h : BreaksLast items)
    (fonts : Font.FontService α) : EndsAtBreak fonts items := by
  rintro front i back rfl hi
  exact (h.at_forced hi).imp_right Or.inl

theorem BreaksLast.endsAtBreak_strut {items : List (Instruction α)} (h : BreaksLast items)
    (room : α) (state : Style.StyleState α) (fonts : Font.FontService α) :
    EndsAtBreak fonts (items ++ [.strut room state fonts]) := by
  refine Everywhere.concat_iff.2 ⟨?_, fun hi => by cases hi⟩
  rintro front i back rfl hi
  obtain ⟨hfront, rfl⟩ := h.at_forced hi
  exact ⟨hfront, Or.inr ⟨room, state, rfl⟩⟩

/-- How the lines of a list end: each forced break of the list is on one of them, and ends it but
for a strut that fills the line; a line is hard if it has a forced break or is the last. -/
structure Ended (fonts : Font.FontService α) (items : List (Instruction α))
    (lines : List (Line α)) : Prop where
  breaks : lines.flatMap (fun l => forcedBreaks l.instructions) = forcedBreaks items
  ends : ∀ l ∈ lines, EndsAtBreak fonts l.instructions
  page : ∀ l ∈ lines, l.pageBreak = l.instructions.any Instruction.isPageBreak
  hard : Everywhere (fun _ l back =>
    l.hardBreak = true ↔ back = [] ∨ forcedBreaks l.instructions ≠ []) lines

/-- The last line, if there is one, has a forced break. -/
def LastBreaks (lines : List (Line α)) : Prop :=
  ∀ l ∈ lines.getLast?, forcedBreaks l.instructions ≠ []

namespace Ended

variable {fonts : Font.FontService α} {items more : List (Instruction α)}
  {lines behind : List (Line α)} {l : Line α}

theorem nil (fonts : Font.FontService α) (h : forcedBreaks items = []) : Ended fonts items [] where
  breaks := h.symm
  ends := by simp
  page := by simp
  hard := .nil

theorem singleton (hbreaks : forcedBreaks l.instructions = forcedBreaks items)
    (hends : EndsAtBreak fonts l.instructions)
    (hpage : l.pageBreak = l.instructions.any Instruction.isPageBreak)
    (hhard : l.hardBreak = true) : Ended fonts items [l] where
  breaks := by simpa using hbreaks
  ends := by simpa using hends
  page := by simpa using hpage
  hard := Everywhere.singleton_iff.2 ⟨fun _ => Or.inl rfl, fun _ => hhard⟩

/-- Lines behind others that end with a forced break. -/
theorem append (h : Ended fonts items lines) (hmore : Ended fonts more behind)
    (hlast : LastBreaks lines ∨ behind = []) : Ended fonts (items ++ more) (lines ++ behind) where
  breaks := by rw [List.flatMap_append, forcedBreaks_append, h.breaks, hmore.breaks]
  ends := fun l hl => (List.mem_append.1 hl).elim (h.ends l) (hmore.ends l)
  page := fun l hl => (List.mem_append.1 hl).elim (h.page l) (hmore.page l)
  hard := by
    refine Everywhere.append_iff.2 ⟨?_, hmore.hard⟩
    rintro front l back rfl
    have hhard : l.hardBreak = true ↔ back = [] ∨ forcedBreaks l.instructions ≠ [] :=
      h.hard front l back rfl
    rw [hhard]
    rcases hlast with hlast | rfl
    · -- the last of these lines has a forced break, so what comes behind does not matter
      refine ⟨fun hl => Or.inr ?_, fun hl => hl.imp_left fun hnil => ?_⟩
      · rcases hl with rfl | hl
        · exact hlast l (by simp)
        · exact hl
      · exact (List.append_eq_nil_iff.1 hnil).1
    · rw [List.append_nil]

end Ended

/-! ## Greedy lines -/

/-- A greedy line is hard if it has a forced break or is the last. -/
theorem LineBreaks.hard_iff {width : α} {items rest : List (Instruction α)} {l : Line α}
    (hl : LineBreaks items l rest)
    (hclear : ClearLines (fun i => i.isClosing = false) (l :: greedyLines width rest)) :
    l.hardBreak = true ↔ greedyLines width rest = [] ∨ forcedBreaks l.instructions ≠ [] := by
  constructor
  · intro hhard
    rcases hl.hard hhard with hforced | rfl
    · exact Or.inr hforced
    · exact Or.inl (greedyLines_nil width)
  · rintro (hnone | hforced)
    · rw [hnone] at hclear
      exact hclear.last l rfl
    · by_contra hsoft
      exact hforced (hl.soft (by simpa using hsoft))

/-- Where a list ends with a forced break, its last greedy line does. -/
theorem LineBreaks.lastBreaks {width : α} {fonts : Font.FontService α}
    {items rest : List (Instruction α)} {l : Line α} (hl : LineBreaks items l rest)
    (hrest : Ended fonts rest (greedyLines width rest))
    (hlast : endsForced rest = true → LastBreaks (greedyLines width rest))
    (hitems : endsForced items = true) : LastBreaks (l :: greedyLines width rest) := by
  intro k hk
  cases hmore : greedyLines width rest with
  | nil =>
    rw [hmore] at hk hrest
    obtain rfl : l = k := by simpa using hk
    have hforced : forcedBreaks items = forcedBreaks l.instructions := by
      rw [hl.split, ← hrest.breaks]
      exact List.append_nil _
    rw [← hforced]
    exact forcedBreaks_ne_nil_of_endsForced hitems
  | cons next more =>
    rw [hmore, List.getLast?_cons_cons, ← hmore] at hk
    rcases hl.tail with rfl | hsame
    · rw [greedyLines_nil] at hmore
      cases hmore
    · exact hlast ((endsForced_congr hsame).trans hitems) k hk

section

variable [Scalar.KeepsSign α]

theorem ended_greedyLines (width : α) (fonts : Font.FontService α) {items : List (Instruction α)}
    (hmade : ∀ i ∈ items, i.Made) :
    Ended fonts items (greedyLines width items) ∧
      (endsForced items = true → LastBreaks (greedyLines width items)) := by
  induction hn : items.length using Nat.strong_induction_on generalizing items with
  | _ n ih =>
    rcases greedyLines_cases width items with ⟨_, hnone, hlines⟩ | ⟨l, rest, hsome, hlt, hlines⟩
    · rw [hlines]
      exact ⟨.nil fonts (forcedBreaks_eq_nil.2 (greedyLine_none hnone).2), by simp [LastBreaks]⟩
    · obtain ⟨hrest, hlast⟩ :=
        ih rest.length (by omega) (fun i hi => hmade i (greedyLine_subset hsome hi)) rfl
      have hl := lineBreaks_greedyLine hmade hsome
      have hclear := clearLines_greedyLines width hmade
      rw [hlines] at hclear ⊢
      refine ⟨⟨?_, ?_, ?_, ?_⟩, hl.lastBreaks hrest hlast⟩
      · rw [List.flatMap_cons, hrest.breaks, hl.split]
      · exact List.forall_mem_cons.2 ⟨hl.ends.endsAtBreak fonts, hrest.ends⟩
      · exact List.forall_mem_cons.2 ⟨hl.page, hrest.page⟩
      · exact Everywhere.cons_iff.2 ⟨hl.hard_iff hclear, hrest.hard⟩

end

/-! ## Lines of pieces -/

/-- A paragraph cut in pieces that are not empty, with a last line that may be filled. -/
theorem ended_pieces {fonts : Font.FontService α} {pieces : List (List (Instruction α))}
    {last : List (Instruction α)} {l : Line α} (hne : last ≠ [])
    (hbreaks : BreaksLast (pieces.flatten ++ last))
    (hmade : ∀ i ∈ pieces.flatten ++ last, i.Made) (hl : Ended fonts last [l]) :
    Ended fonts (pieces.flatten ++ last)
      (pieces.map (fun piece => Line.ofInstructions piece false) ++ [l]) := by
  induction pieces with
  | nil => exact hl
  | cons piece pieces ih =>
    rw [List.flatten_cons, List.append_assoc] at hbreaks hmade ⊢
    have hforced : ∀ i ∈ piece, i.isForcedBreak = false :=
      hbreaks.front (by simp [hne])
    have hkept : forcedBreaks (Line.ofInstructions piece false).instructions = [] :=
      (forcedBreaks_trim fun i hi => hmade i (List.mem_append_left _ hi)).trans
        (forcedBreaks_eq_nil.2 hforced)
    obtain ⟨hmore, hends, hpage, hhard⟩ :=
      ih (hbreaks.sublist (List.sublist_append_right _ _))
        fun i hi => hmade i (List.mem_append_right _ hi)
    rw [List.map_cons, List.cons_append]
    refine ⟨?_, ?_, ?_, Everywhere.cons_iff.2 ⟨?_, hhard⟩⟩
    · rw [List.flatMap_cons, hmore, hkept, forcedBreaks_append piece,
        forcedBreaks_eq_nil.2 hforced]
    · refine List.forall_mem_cons.2 ⟨?_, hends⟩
      exact ((BreaksLast.of_forall hforced).sublist (trim_sublist piece)).endsAtBreak fonts
    · exact List.forall_mem_cons.2 ⟨rfl, hpage⟩
    · rw [hkept]
      simp [Line.ofInstructions, Line.measured]

theorem ended_lastPiece (fonts : Font.FontService α) {last : List (Instruction α)}
    (hbreaks : BreaksLast last) (hmade : ∀ i ∈ last, i.Made) :
    Ended fonts last [.ofInstructions last true] :=
  .singleton (forcedBreaks_trim hmade) ((hbreaks.sublist (trim_sublist last)).endsAtBreak fonts)
    rfl rfl

/-- Filling the last line puts a strut behind its forced break. -/
theorem ended_padded (width : α) (fonts : Font.FontService α) {last : List (Instruction α)}
    (hbreaks : BreaksLast last) (hmade : ∀ i ∈ last, i.Made) :
    ∃ l, padLast width fonts [.ofInstructions last true] = [l] ∧ Ended fonts last [l] := by
  have hstrut (room : α) (state : Style.StyleState α) :
      (Instruction.strut room state fonts).isForcedBreak = false := rfl
  rcases padLast_cases width fonts [.ofInstructions last true] with
    hpad | ⟨init, line, state, hline, -, hpad⟩
  · exact ⟨_, hpad, ended_lastPiece fonts hbreaks hmade⟩
  · rw [← List.nil_append [Line.ofInstructions last true]] at hline
    obtain ⟨rfl, hline⟩ := List.append_inj' hline rfl
    obtain rfl := List.singleton_inj.1 hline
    refine ⟨_, hpad, .singleton ?_ ?_ ?_ rfl⟩
    · refine Eq.trans ?_ (forcedBreaks_trim hmade)
      refine (forcedBreaks_append _ _).trans ?_
      rw [forcedBreaks_cons_of_not _ (hstrut _ _)]
      exact List.append_nil _
    · exact (hbreaks.sublist (trim_sublist last)).endsAtBreak_strut _ state fonts
    · show _ = List.any (_ ++ [_]) _
      rw [List.any_append]
      exact (Bool.or_false _).symm

/-! ## The lines of a text -/

section

variable [Scalar.KeepsSign α]

theorem ended_breakLines (width : α) (config : OptimalConfig α) (justify : Bool)
    (fonts : Font.FontService α) {items : List (Instruction α)} (hmade : ∀ i ∈ items, i.Made)
    (hbreaks : BreaksLast items) :
    Ended fonts items (breakLines width config justify fonts items) ∧
      (endsForced items = true → LastBreaks (breakLines width config justify fonts items)) := by
  by_cases hitems : items = []
  · subst hitems
    exact ⟨.nil fonts rfl, fun hends => by cases hends⟩
  rcases breakLines_cases width config justify fonts hitems with heq | ⟨n, starts, hfound, heq⟩
  · rw [heq]
    exact ended_greedyLines width fonts hmade
  · obtain ⟨bs, s, c, hbs, -, rfl⟩ := findBreaks_sound hfound
    obtain ⟨pieces, hcut, -⟩ := hbs.cutAt_eq
    have hs := hbs.lt_length hitems
    have hlast : items.drop s ≠ [] := by simpa using hs
    have hsplit : pieces.flatten ++ items.drop s = items := by
      have hflat := flatten_cutAt 0 items (bs.map Break.next)
      rw [List.drop_zero] at hcut
      rwa [hcut, List.flatten_append, List.flatten_singleton] at hflat
    have hlastMade : ∀ i ∈ items.drop s, i.Made := fun i hi => hmade i (List.mem_of_mem_drop hi)
    have hlastBreaks : BreaksLast (items.drop s) := hbreaks.sublist (List.drop_sublist s items)
    -- filled or not, the last line is made of the last piece
    obtain ⟨l, hlines, hl⟩ : ∃ l, breakLines width config justify fonts items =
        pieces.map (fun piece => Line.ofInstructions piece false) ++ [l] ∧
        Ended fonts (items.drop s) [l] := by
      rw [List.drop_zero] at hcut
      rw [heq, List.drop_one, List.tail_cons, hcut, linesOfPieces_concat]
      cases justify with
      | false => exact ⟨_, rfl, ended_lastPiece fonts hlastBreaks hlastMade⟩
      | true =>
        obtain ⟨l, hpad, hl⟩ := ended_padded width fonts hlastBreaks hlastMade
        refine ⟨l, ?_, hl⟩
        rw [if_pos rfl, padLast_concat, hpad]
    rw [hlines]
    refine ⟨?_, fun hends k hk => ?_⟩
    · rw [← hsplit] at hbreaks hmade
      have hended := ended_pieces hlast hbreaks hmade hl
      rwa [hsplit] at hended
    · rw [List.getLast?_concat] at hk
      obtain rfl := Option.some.inj hk
      have hsame : (items.drop s).getLast? = items.getLast? := by
        rw [List.getLast?_drop, if_neg (by omega)]
      have hbreak := hl.breaks
      rw [List.flatMap_singleton] at hbreak
      rw [hbreak]
      exact forcedBreaks_ne_nil_of_endsForced ((endsForced_congr hsame).trans hends)

omit [Scalar α] [Scalar.KeepsSign α] in
/-- Each paragraph but the last ends with its one forced break. -/
theorem paragraphsOf_everywhere (items : List (Instruction α)) :
    Everywhere (fun _ paragraph back => paragraph ≠ [] ∧ BreaksLast paragraph ∧
      (back = [] ∨ endsForced paragraph = true)) (paragraphsOf items) := by
  induction items with
  | nil => exact .nil
  | cons i items ih =>
    rw [paragraphsOf]
    by_cases hi : i.isForcedBreak = true
    · rw [if_pos hi]
      refine Everywhere.cons_iff.2 ⟨⟨by simp, .singleton i, Or.inr ?_⟩, ih⟩
      simpa [endsForced] using hi
    · rw [if_neg hi]
      rw [Bool.not_eq_true] at hi
      have halone : BreaksLast [i] := .singleton i
      cases hmore : paragraphsOf items with
      | nil => exact Everywhere.singleton_iff.2 ⟨by simp, halone, Or.inl rfl⟩
      | cons paragraph more =>
        rw [hmore] at ih
        obtain ⟨⟨hne, hbreaks, hends⟩, hback⟩ := Everywhere.cons_iff.1 ih
        refine Everywhere.cons_iff.2 ⟨⟨by simp, ?_, ?_⟩, hback⟩
        · exact List.pairwise_cons.2 ⟨fun _ _ => hi, hbreaks⟩
        · rw [endsForced_cons hi]
          exact hends

/-- Paragraphs that all but the last end with a forced break, each broken for itself. -/
theorem ended_paragraphs (b : Typesetter α) (width : α) {paragraphs : List (List (Instruction α))}
    (hbreaks : Everywhere (fun _ paragraph back => paragraph ≠ [] ∧ BreaksLast paragraph ∧
      (back = [] ∨ endsForced paragraph = true)) paragraphs)
    (hmade : ∀ i ∈ paragraphs.flatten, i.Made) :
    Ended b.parser.setup.fonts paragraphs.flatten
      (paragraphs.flatMap (b.breakParagraph width)) := by
  induction paragraphs with
  | nil => exact .nil _ rfl
  | cons paragraph paragraphs ih =>
    rw [List.flatten_cons] at hmade ⊢
    obtain ⟨⟨hne, hbreak, hends⟩, hback⟩ := Everywhere.cons_iff.1 hbreaks
    obtain ⟨hlines, hlast⟩ := ended_breakLines width b.optimal b.justify b.parser.setup.fonts
      (fun i hi => hmade i (List.mem_append_left _ hi)) hbreak
    rw [List.flatMap_cons]
    refine hlines.append (ih hback fun i hi => hmade i (List.mem_append_right _ hi)) ?_
    refine hends.symm.imp hlast ?_
    rintro rfl
    rfl

theorem ended_linesOf (b : Typesetter α) (width : α) {items : List (Instruction α)}
    (hmade : ∀ i ∈ items, i.Made) :
    Ended b.parser.setup.fonts items (b.linesOf width items) := by
  unfold Typesetter.linesOf
  cases b.algorithm with
  | greedy => exact (ended_greedyLines width b.parser.setup.fonts hmade).1
  | optimal =>
    have h := ended_paragraphs b width (paragraphsOf_everywhere items)
      (by rwa [flatten_paragraphsOf])
    rwa [flatten_paragraphsOf] at h

/-- Of the lines of a text that is read to its end, those are hard that hold a forced break, and
the last.  Each forced break is on one line, in order, and ends it but for a strut that may fill
the line; the lines with a page break tell so. -/
theorem lines_end_at_breaks {text : String} {root : Style.StyleState α} {setup : Setup α}
    {out : List (Handed α)} {q : Parser α}
    (hread : (Parser.ofText text root setup).handouts = (.ok out, q)) (algorithm : Algorithm)
    (optimal : OptimalConfig α) (justify : Bool) (width : α) :
    ∃ lines, ((Typesetter.ofText text root setup algorithm optimal justify).lines width).1 =
        .ok lines ∧
      Everywhere (fun _ l back => l.hardBreak = true ↔
        back = [] ∨ ∃ i ∈ l.instructions, i.isForcedBreak = true) lines ∧
      (∀ l ∈ lines, Everywhere (fun front i back => i.isForcedBreak = true →
        (∀ j ∈ front, j.isForcedBreak = false) ∧
          (back = [] ∨ ∃ room state, back = [.strut room state setup.fonts])) l.instructions) ∧
      lines.flatMap (fun l => forcedBreaks l.instructions) =
        forcedBreaks (out.map Handed.item) ∧
      ∀ l ∈ lines, l.pageBreak = true ↔ ∃ i ∈ l.instructions, i.isPageBreak = true := by
  have hmade : ∀ i ∈ out.map Handed.item, i.Made := by
    intro i hi
    obtain ⟨j, hj, rfl⟩ := List.mem_map.1 hi
    obtain ⟨p, hreads, -⟩ := reads_of_handouts hread
    obtain ⟨kind, hkind⟩ := (measured_of_reads hreads rfl).2.2 j hj
    exact ⟨kind, j.item.state, setup.fonts, hkind⟩
  have hended := ended_linesOf (Typesetter.ofText text root setup algorithm optimal justify) width
    hmade
  refine ⟨_, Typesetter.lines_of_yields rfl (Parser.yields_of_handouts hread) width,
    hended.hard.mono fun _ l back hhard => hhard.trans ?_, fun l hl => ?_, hended.breaks,
    fun l hl => ?_⟩
  · rw [Ne, forcedBreaks_eq_nil]
    simp
  · refine (hended.ends l hl).mono fun front i back hends hi => ?_
    exact (hends hi).imp_left forcedBreaks_eq_nil.1
  · rw [hended.page l hl, List.any_eq_true]

end

/-- Three lines, the second of which a line break ends, the last of each paragraph filled. -/
theorem lines_end_filled :
    ∃ out q, (Parser.ofText "aa bb<br/>cc" Sample.state Sample.setup).handouts = (.ok out, q) ∧
      out.map (fun j => j.item.kind) =
        [.text "aa", .text " ", .text "bb", .lineBreak, .text "cc"] ∧
      ∃ lines, ((Typesetter.ofText "aa bb<br/>cc" Sample.state Sample.setup .optimal .standard
          true).lines 20).1 = .ok lines ∧
        Everywhere (fun _ l back => l.hardBreak = true ↔
          back = [] ∨ ∃ i ∈ l.instructions, i.isForcedBreak = true) lines ∧
        (∀ l ∈ lines, Everywhere (fun front i back => i.isForcedBreak = true →
          (∀ j ∈ front, j.isForcedBreak = false) ∧
            (back = [] ∨ ∃ room state, back = [.strut room state Sample.fonts]))
          l.instructions) ∧
        lines.flatMap (fun l => forcedBreaks l.instructions) =
          forcedBreaks (out.map Handed.item) ∧
        ∀ l ∈ lines, l.pageBreak = true ↔ ∃ i ∈ l.instructions, i.isPageBreak = true := by
  have hkinds : (Sample.parser "aa bb<br/>cc").handouts.1.toOption.map
      (fun out => out.map fun j => j.item.kind) =
        some [.text "aa", .text " ", .text "bb", .lineBreak, .text "cc"] := by
    decide +kernel
  obtain ⟨out, hout, hlist⟩ := Option.map_eq_some_iff.1 hkinds
  have hread : (Parser.ofText "aa bb<br/>cc" Sample.state Sample.setup).handouts =
      (.ok out, (Sample.parser "aa bb<br/>cc").handouts.2) := Prod.ext (ok_of_toOption hout) rfl
  exact ⟨out, _, hread, hlist, lines_end_at_breaks hread .optimal .standard true 20⟩

end Paragraph
end Galley
