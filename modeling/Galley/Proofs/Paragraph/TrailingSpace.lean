import Galley.Proofs.Paragraph.BreakLines
import Galley.Proofs.Paragraph.Yields

/-
White space at the end of what is broken into lines.

A run of white space behind the last instruction is dropped with the line that it would end, so a
list with one more run at its end is broken into the same lines.  Only behind a forced break it
stands on a line of its own, which is then blank.  Both ways of breaking are gone through: greedy
filling step by step (`follows_fillLine`), and the search, which does not look at white space that
nothing visible follows (`findBreaks_concat_space`).
-/

namespace Galley

/-- What fits a width fits it with some slack.  So it is for exact numbers and for doubles, whose
sums are rounded to what is not below either part. -/
class Scalar.HasSlack (α : Type) [Scalar α] : Prop where
  not_wide : ∀ {a b : α}, b ≤ a → ¬ a + Scalar.epsilon < 0 + b

instance : Scalar.HasSlack Rat where
  not_wide := by
    intro a b h
    rw [zero_add, not_lt]
    exact le_add_of_le_of_nonneg h (le_of_lt Scalar.epsilon_pos)

namespace Paragraph

open Source

variable {α : Type} [Scalar α]

/-- White space that fits an empty line of the width. -/
structure FitsAsSpace (width : α) (sp : Instruction α) : Prop where
  notForced : sp.isForcedBreak = false
  discardable : sp.discardable = true
  opportunity : sp.breakOpportunity = true
  fits : ¬ width + Scalar.epsilon < 0 + sp.width

/-- White space that comes last fits an empty line of the width too. -/
def LastFits (width : α) (items : List (Instruction α)) : Prop :=
  ∀ i ∈ items.getLast?, i.discardable = true → ¬ width + Scalar.epsilon < 0 + i.width

theorem LastFits.of_cons {width : α} {i : Instruction α} {items : List (Instruction α)}
    (h : LastFits width (i :: items)) : LastFits width items := by
  intro j hj
  refine h j ?_
  cases items with
  | nil => cases hj
  | cons k items => rwa [List.getLast?_cons_cons]

theorem LastFits.congr {width : α} {items rest : List (Instruction α)} (h : LastFits width items)
    (hlast : rest.getLast? = items.getLast?) : LastFits width rest := by
  unfold LastFits
  rwa [hlast]

omit [Scalar α] in
/-- The list ends with a forced break. -/
def endsForced (items : List (Instruction α)) : Bool :=
  items.getLast?.any Instruction.isForcedBreak

omit [Scalar α] in
theorem endsForced_congr {items rest : List (Instruction α)}
    (hlast : rest.getLast? = items.getLast?) : endsForced rest = endsForced items := by
  unfold endsForced
  rw [hlast]

def Line.blank : Line α := .ofInstructions [] true

theorem ofInstructions_concat_space (items : List (Instruction α)) {sp : Instruction α}
    (h : sp.discardable = true) (hard : Bool) :
    Line.ofInstructions (items ++ [sp]) hard = Line.ofInstructions items hard := by
  unfold Line.ofInstructions
  rw [trim_concat_space items h]

/-! ## Greedy lines -/

/-- What a line leaves of `items`: the end of them, or nothing behind a forced break. -/
inductive LeavesEnd (items : List (Instruction α)) : List (Instruction α) → Prop where
  | nothing (h : endsForced items = true) : LeavesEnd items []
  | more {rest : List (Instruction α)} (hne : rest ≠ [])
      (hlast : rest.getLast? = items.getLast?) : LeavesEnd items rest

/-- `Follows sp items x y`: `x` has been taken from `items`, and `y` is the same taken from `items`
with `sp` behind them.  Either `sp` stays behind what is left, or it went with the last line. -/
def Follows {β : Type} (sp : Instruction α) (items : List (Instruction α))
    (x y : Except Error β × List (Instruction α)) : Prop :=
  ∃ made rest, x = (.ok made, rest) ∧
    ((y = (.ok made, rest ++ [sp]) ∧ LeavesEnd items rest) ∨
      (y = (.ok made, []) ∧ rest = [] ∧ endsForced items = false))

omit [Scalar α] in
theorem LeavesEnd.tail {i : Instruction α} (items : List (Instruction α))
    (h : i.isForcedBreak = true) : LeavesEnd (i :: items) items := by
  cases items with
  | nil => exact .nothing (by simpa [endsForced] using h)
  | cons j items => exact .more (by simp) (by simp)

omit [Scalar α] in
theorem endsForced_cons {i : Instruction α} (h : i.isForcedBreak = false)
    (items : List (Instruction α)) : endsForced (i :: items) = endsForced items := by
  cases items with
  | nil => simpa [endsForced] using h
  | cons j items => simp [endsForced]

omit [Scalar α] in
theorem LeavesEnd.cons {i : Instruction α} {items rest : List (Instruction α)}
    (hi : i.isForcedBreak = false) (h : LeavesEnd items rest) : LeavesEnd (i :: items) rest := by
  cases h with
  | nothing h => exact .nothing (by rw [endsForced_cons hi, h])
  | more hne hlast =>
    refine .more hne ?_
    cases items with
    | nil => exact absurd (List.getLast?_eq_none_iff.1 hlast) hne
    | cons j items => rw [hlast, List.getLast?_cons_cons]

omit [Scalar α] in
theorem Follows.cons {β : Type} {sp i : Instruction α} {items : List (Instruction α)}
    {x y : Except Error β × List (Instruction α)} (hi : i.isForcedBreak = false)
    (h : Follows sp items x y) : Follows sp (i :: items) x y := by
  obtain ⟨made, rest, hx, ⟨hy, hleaves⟩ | ⟨hy, hrest, hlast⟩⟩ := h
  · exact ⟨made, rest, hx, Or.inl ⟨hy, hleaves.cons hi⟩⟩
  · exact ⟨made, rest, hx, Or.inr ⟨hy, hrest, by rw [endsForced_cons hi, hlast]⟩⟩

omit [Scalar α] in
theorem Follows.map {β γ : Type} {sp : Instruction α} {items : List (Instruction α)}
    {x y : Except Error β × List (Instruction α)} (f : β → γ) (h : Follows sp items x y) :
    Follows sp items (x.1.map f, x.2) (y.1.map f, y.2) := by
  obtain ⟨made, rest, rfl, ⟨rfl, hleaves⟩ | ⟨rfl, hrest, hlast⟩⟩ := h
  · exact ⟨f made, rest, rfl, Or.inl ⟨rfl, hleaves⟩⟩
  · exact ⟨f made, rest, rfl, Or.inr ⟨rfl, hrest, hlast⟩⟩

theorem follows_closeAfterSpace {sp : Instruction α} (hf : sp.isForcedBreak = false)
    (hd : sp.discardable = true) (line items : List (Instruction α)) :
    Follows sp items (closeAfterSpace line items) (closeAfterSpace line (items ++ [sp])) := by
  induction items generalizing line with
  | nil =>
    refine ⟨_, _, closeAfterSpace_nil line, Or.inr ⟨?_, rfl, rfl⟩⟩
    rw [List.nil_append, closeAfterSpace_cons, if_neg (by simp [hf]), if_pos hd,
      closeAfterSpace_nil]
  | cons i items ih =>
    rw [List.cons_append, closeAfterSpace_cons, closeAfterSpace_cons]
    by_cases hi : i.isForcedBreak = true
    · rw [if_pos hi, if_pos hi]
      exact ⟨_, _, rfl, Or.inl ⟨rfl, .tail items hi⟩⟩
    · rw [if_neg hi, if_neg hi]
      rw [Bool.not_eq_true] at hi
      by_cases hspace : i.discardable = true
      · rw [if_pos hspace, if_pos hspace]
        exact (ih line).cons hi
      · rw [if_neg hspace, if_neg hspace]
        by_cases hc : i.isClosing = true
        · rw [if_pos hc, if_pos hc]
          exact (ih (line ++ [i])).cons hi
        · rw [if_neg hc, if_neg hc]
          exact ⟨_, _, rfl, Or.inl ⟨rfl, .more (by simp) rfl⟩⟩

theorem greedyLines_of_none {width : α} {items rest : List (Instruction α)}
    (h : greedyLine width items = (.ok none, rest)) : greedyLines width items = [] := by
  rcases greedyLines_cases width items with ⟨_, -, hlines⟩ | ⟨_, _, hl, -, -⟩
  · exact hlines
  · rw [h] at hl
    cases hl

theorem greedyLines_of_some {width : α} {items rest : List (Instruction α)} {l : Line α}
    (h : greedyLine width items = (.ok (some l), rest)) :
    greedyLines width items = l :: greedyLines width rest := by
  rcases greedyLines_cases width items with ⟨_, hnone, -⟩ | ⟨_, _, hl, -, hlines⟩
  · rw [h] at hnone
    cases hnone
  · rw [h] at hl
    cases hl
    exact hlines

theorem greedyLines_nil (width : α) : greedyLines width ([] : List (Instruction α)) = [] :=
  greedyLines_of_none (fillLine_nil width [] 0 none)

section

variable [Scalar.KeepsSign α] {width : α} {sp : Instruction α}

theorem not_overflows_space (h : FitsAsSpace width sp) (limit filled : α) :
    ¬ Overflows limit filled sp :=
  not_overflows_of_not_isVisible (Instruction.not_isVisible_of_discardable h.discardable)

/-- White space that comes last on a line that holds something is dropped with it. -/
theorem fillLine_space (h : FitsAsSpace width sp) {line : List (Instruction α)} (hline : line ≠ [])
    (filled : α) (cut : Option Nat) : fillLine width line filled cut [sp] =
      (.ok (some (.ofInstructions line true)), []) := by
  have hlist : next [sp] = (.ok (some sp), []) := rfl
  have hend : fillLine width line filled cut ([] : List (Instruction α)) =
      (.ok (some (.ofInstructions line true)), []) := by
    rw [fillLine_nil, if_neg (by simpa using hline)]
  rw [fillLine_of_next width line filled cut hlist, if_neg (by simp [h.notForced]),
    decide_eq_false (not_overflows_space h width filled)]
  dsimp only
  split
  · split
    · exact hend
    · rw [closeAfterSpace_nil]
      rfl
  · rw [fillLine_nil, if_neg (by simp), ofInstructions_concat_space line h.discardable]

theorem follows_fillLine (h : FitsAsSpace width sp) {line items : List (Instruction α)} {filled : α}
    {cut : Option Nat} (hstart : line = [] → filled = 0) (hline : items = [] → line ≠ [])
    (hlast : LastFits width items) :
    Follows sp items (fillLine width line filled cut items)
      (fillLine width line filled cut (items ++ [sp])) := by
  induction items generalizing line filled cut with
  | nil =>
    have hne := hline rfl
    refine ⟨_, _, fillLine_nil width line filled cut, Or.inr ⟨?_, rfl, rfl⟩⟩
    rw [if_neg (by simpa using hne)]
    exact fillLine_space h hne filled cut
  | cons i items ih =>
    have hlist : next (i :: items) = (.ok (some i), items) := rfl
    have hlist' : next (i :: (items ++ [sp])) = (.ok (some i), items ++ [sp]) := rfl
    rw [List.cons_append, fillLine_of_next width line filled cut hlist,
      fillLine_of_next width line filled cut hlist']
    by_cases hi : i.isForcedBreak = true
    · rw [if_pos hi, if_pos hi]
      exact ⟨_, _, rfl, Or.inl ⟨rfl, .tail items hi⟩⟩
    · rw [if_neg hi, if_neg hi]
      rw [Bool.not_eq_true] at hi
      split
      · next c _ =>
        rw [giveBackAll_list, giveBackAll_list]
        refine ⟨_, _, rfl, Or.inl ⟨by simp, .more (by simp) ?_⟩⟩
        rw [List.append_assoc, List.singleton_append, List.getLast?_append_of_ne_nil _ (by simp)]
      · split
        · next hwide =>
          rw [Bool.and_eq_true, decide_eq_true_eq] at hwide
          split
          · refine (ih hstart ?_ hlast.of_cons).cons hi
            -- white space that is alone on the line and comes last fits it
            rintro rfl rfl
            rw [hstart rfl] at hwide
            exact hlast i rfl hwide.1 hwide.2
          · exact ((follows_closeAfterSpace h.notForced h.discardable line items).map some).cons hi
        · exact (ih (by simp) (by simp) hlast.of_cons).cons hi

theorem greedyLines_space (h : FitsAsSpace width sp) : greedyLines width [sp] = [.blank] := by
  have hlist : next [sp] = (.ok (some sp), []) := rfl
  have hline : greedyLine width [sp] = (.ok (some .blank), []) := by
    show fillLine width [] 0 none [sp] = _
    rw [fillLine_of_next width [] 0 none hlist, if_neg (by simp [h.notForced]),
      decide_eq_false (not_overflows_space h width 0)]
    dsimp only
    rw [if_neg (by simp [h.fits]), fillLine_nil, if_neg (by simp),
      ofInstructions_concat_space [] h.discardable]
    rfl
  rw [greedyLines_of_some hline, greedyLines_nil]

theorem greedyLines_concat_space (h : FitsAsSpace width sp) {items : List (Instruction α)}
    (hne : items ≠ []) (hlast : LastFits width items) :
    greedyLines width (items ++ [sp]) =
      greedyLines width items ++ if endsForced items then [.blank] else [] := by
  induction hlength : items.length using Nat.strong_induction_on generalizing items with
  | _ n ih =>
    have hfollows : Follows sp items (greedyLine width items) (greedyLine width (items ++ [sp])) :=
      follows_fillLine h (fun _ => rfl) (fun hnil => absurd hnil hne) hlast
    obtain ⟨made, rest, hx, hy⟩ := hfollows
    cases made with
    | none =>
      rcases hy with ⟨hy, -⟩ | ⟨hy, -, hforced⟩
      · exact absurd (greedyLine_none hy).1 (by simp)
      · rw [greedyLines_of_none hx, greedyLines_of_none hy, hforced]
        rfl
    | some l =>
      rcases hy with ⟨hy, hleaves⟩ | ⟨hy, rfl, hforced⟩
      · rw [greedyLines_of_some hx, greedyLines_of_some hy, List.cons_append]
        cases hleaves with
        | nothing hforced =>
          rw [List.nil_append, greedyLines_space h, greedyLines_nil, hforced]
          rfl
        | more hrest hsame =>
          have hlt : rest.length < items.length := remaining_greedyLine_lt hx
          rw [ih rest.length (hlength ▸ hlt) hrest (hlast.congr hsame) rfl, endsForced_congr hsame]
      · rw [greedyLines_of_some hx, greedyLines_of_some hy, greedyLines_nil, hforced]
        rfl

/-! ## The search -/

theorem showsMore_concat_space (h : FitsAsSpace width sp) (items : List (Instruction α)) :
    showsMore (items ++ [sp]) = showsMore items := by
  unfold showsMore
  rw [List.any_append, List.any_cons, List.any_nil,
    Instruction.not_isVisible_of_discardable h.discardable, Bool.or_false, Bool.or_false]

omit [Scalar α] [Scalar.KeepsSign α] in
theorem leadingSpaces_cons (i : Instruction α) (items : List (Instruction α)) :
    leadingSpaces (i :: items) = if i.discardable then leadingSpaces items + 1 else 0 := by
  unfold leadingSpaces
  rw [List.takeWhile_cons]
  split <;> rfl

/-- White space in front of something visible ends before it. -/
theorem leadingSpaces_of_shows {items : List (Instruction α)} (h : showsMore items = true)
    (more : List (Instruction α)) :
    leadingSpaces (items ++ more) = leadingSpaces items ∧ leadingSpaces items < items.length := by
  induction items with
  | nil => cases h
  | cons i items ih =>
    rw [List.cons_append, leadingSpaces_cons, leadingSpaces_cons]
    by_cases hd : i.discardable = true
    · have hrest : showsMore items = true := by
        simpa [showsMore, Instruction.not_isVisible_of_discardable hd] using h
      obtain ⟨heq, hlt⟩ := ih hrest
      rw [if_pos hd, if_pos hd, heq, List.length_cons]
      exact ⟨rfl, by omega⟩
    · rw [if_neg hd, if_neg hd]
      exact ⟨rfl, by simp⟩

theorem grow_concat_space (h : FitsAsSpace width sp) (limits : Limits α) (place : Nat)
    (g : Growth α) (items : List (Instruction α)) :
    grow limits place g (items ++ [sp]) = grow limits place g items := by
  induction items generalizing place g with
  | nil =>
    have hover := not_overflows_space h limits.width g.running
    have hpenalty : g.penaltyWith limits sp = g.penalty := if_neg hover
    rw [List.nil_append, grow_cons, if_neg fun hs => hover hs.1, if_neg (by simp [h.opportunity]),
      if_pos (show showsMore ([] : List (Instruction α)) = false from rfl), hpenalty]
    rfl
  | cons i items ih =>
    rw [List.cons_append, grow_cons, grow_cons, showsMore_concat_space h, ih]
    by_cases hshows : showsMore items = true
    · have hbreak : g.breakAt limits place i (items ++ [sp]) = g.breakAt limits place i items := by
        unfold Growth.breakAt
        rw [(leadingSpaces_of_shows hshows [sp]).1]
      rw [hbreak]
    · rw [Bool.not_eq_true] at hshows
      simp only [hshows, if_true]

/-- A break leads to something that is left. -/
theorem next_lt_of_mem {limits : Limits α} {items : List (Instruction α)} {place : Nat}
    {b : Break α} (hb : b ∈ (grow limits place .start items).breaks) :
    b.next < place + items.length := by
  obtain ⟨front, i, rest, hitems, -, hends, rfl⟩ := (mem_breaks_iff limits place [] items b).1 hb
  have hlt := (leadingSpaces_of_shows hends.shows []).2
  show place + front.length + 1 + leadingSpaces rest < place + items.length
  rw [hitems, List.length_append, List.length_cons]
  omega

omit [Scalar α] [Scalar.KeepsSign α] in
theorem modify_push {β : Type} (xs : Array β) (x : β) {k : Nat} (h : k < xs.size) (f : β → β) :
    (xs.push x).modify k f = (xs.modify k f).push x := by
  apply Array.ext_getElem?
  intro n
  simp only [Array.getElem?_modify, Array.getElem?_push, Array.size_modify]
  by_cases hn : k = n
  · rw [if_pos hn, if_pos hn, if_neg (by omega), if_neg (by omega)]
  · rw [if_neg hn, if_neg hn]

omit [Scalar.KeepsSign α] in
theorem enterBreaks_push (path : Path α) (best : Array (Option (Path α)))
    {breaks : List (Break α)} (h : ∀ b ∈ breaks, b.next < best.size) :
    enterBreaks path (best.push none) breaks = (enterBreaks path best breaks).push none := by
  unfold enterBreaks
  induction breaks generalizing best with
  | nil => rfl
  | cons b breaks ih =>
    rw [List.foldl_cons, List.foldl_cons, modify_push best none (h b List.mem_cons_self)]
    refine ih (best.modify b.next _) ?_
    intro c hc
    rw [Array.size_modify]
    exact h c (List.mem_cons_of_mem b hc)

/-- No line starts at the white space, since nothing visible follows it. -/
theorem searchFrom_concat_space (h : FitsAsSpace width sp) (limits : Limits α) (place : Nat)
    (items : List (Instruction α)) (best : Array (Option (Path α))) (final : Option (Path α))
    (hsize : best.size = place + items.length) :
    searchFrom limits place (items ++ [sp]) (best.push none) final =
      searchFrom limits place items best final := by
  induction items generalizing place best final with
  | nil =>
    have hnone : (best.push none)[place]? = some none := by
      rw [Array.getElem?_push, if_pos (by simpa using hsize.symm)]
    simp only [List.nil_append, searchFrom, hnone]
  | cons i items ih =>
    have hplace : place < best.size := by
      rw [hsize, List.length_cons]
      omega
    have hbest : (best.push none)[place]? = best[place]? := by
      rw [Array.getElem?_push, if_neg (by omega)]
    have hnext : best.size = place + 1 + items.length := by
      rw [hsize, List.length_cons]
      omega
    rw [List.cons_append, searchFrom, searchFrom, hbest]
    split
    · next path _ =>
      have hgrow := grow_concat_space h limits place .start (i :: items)
      rw [List.cons_append] at hgrow
      rw [hgrow]
      dsimp only
      rw [enterBreaks_push path best fun b hb => by rw [hsize]; exact next_lt_of_mem hb]
      exact ih (place + 1) _ _ (by rw [size_enterBreaks, hnext])
    · exact ih (place + 1) best final hnext

theorem findBreaks_concat_space (h : FitsAsSpace width sp) (limits : Limits α)
    {items : List (Instruction α)} (hne : items ≠ []) :
    findBreaks limits (items ++ [sp]) = findBreaks limits items := by
  have hpos : 0 < items.length := List.length_pos_iff.2 hne
  have hstart : (startPaths (items ++ [sp]).length : Array (Option (Path α))) =
      (startPaths items.length).push none := by
    unfold startPaths
    rw [List.length_append, List.length_singleton, Array.replicate_succ,
      modify_push _ _ (by rwa [Array.size_replicate])]
  rw [findBreaks_eq, findBreaks_eq, hstart,
    searchFrom_concat_space h limits 0 items _ none (by simp [startPaths])]

theorem attemptBreaks_concat_space (h : FitsAsSpace width sp) (limit : α) (config : OptimalConfig α)
    {items : List (Instruction α)} (hne : items ≠ []) (left attempt : Nat) :
    attemptBreaks limit config (items ++ [sp]) left attempt =
      attemptBreaks limit config items left attempt := by
  induction left generalizing attempt with
  | zero => rfl
  | succ left ih =>
    rw [attemptBreaks, attemptBreaks, findBreaks_concat_space h _ hne, ih]

/-! ## Paragraphs -/

omit [Scalar.KeepsSign α] in
/-- The white space goes with the last piece. -/
theorem Course.cutAt_concat {limits : Limits α} {items : List (Instruction α)} {s t : Nat}
    {bs : List (Break α)} (h : Course limits items s bs t) (sp : Instruction α) :
    ∃ init last, cutAt s (items.drop s) (bs.map Break.next) = init ++ [last] ∧
      cutAt s (items.drop s ++ [sp]) (bs.map Break.next) = init ++ [last ++ [sp]] := by
  induction h with
  | nil s => exact ⟨[], items.drop s, rfl, rfl⟩
  | @cons s t b bs hb hn h ih =>
    have hlt := lt_next_of_mem hb
    have hle : b.next - s ≤ (items.drop s).length := by
      rw [List.length_drop]
      omega
    have hdrop : (items.drop s).drop (b.next - s) = items.drop b.next := by
      rw [List.drop_drop, show s + (b.next - s) = b.next by omega]
    obtain ⟨init, last, hcut, hcut'⟩ := ih
    refine ⟨(items.drop s).take (b.next - s) :: init, last, ?_, ?_⟩
    · rw [List.map_cons, cutAt, hdrop, hcut]
      rfl
    · rw [List.map_cons, cutAt, List.take_append_of_le_length hle,
        List.drop_append_of_le_length hle, hdrop, hcut']
      rfl

theorem breakLines_concat_space (h : FitsAsSpace width sp) (config : OptimalConfig α)
    (justify : Bool) (fonts : Font.FontService α) {items : List (Instruction α)} (hne : items ≠ [])
    (hforced : endsForced items = false) (hlast : LastFits width items) :
    breakLines width config justify fonts (items ++ [sp]) =
      breakLines width config justify fonts items := by
  unfold breakLines
  rw [if_neg (by simp), if_neg (by simpa using hne), attemptBreaks_concat_space h width config hne]
  cases hattempt : attemptBreaks width config items (config.maxRetries + 1) 0 with
  | none =>
    show greedyLines width (items ++ [sp]) = greedyLines width items
    rw [greedyLines_concat_space h hne hlast, hforced]
    exact List.append_nil _
  | some starts =>
    obtain ⟨n, hfound⟩ := attemptBreaks_some hattempt
    obtain ⟨bs, s, c, hcourse, -, rfl⟩ := findBreaks_sound hfound
    obtain ⟨init, last, hcut, hcut'⟩ := hcourse.cutAt_concat sp
    rw [List.drop_zero] at hcut hcut'
    dsimp only
    rw [List.drop_one, List.tail_cons, hcut, hcut', linesOfPieces_concat, linesOfPieces_concat,
      ofInstructions_concat_space last h.discardable]

theorem breakLines_space (h : FitsAsSpace width sp) (config : OptimalConfig α) (justify : Bool)
    (fonts : Font.FontService α) :
    breakLines width config justify fonts [sp] = [.blank] := by
  have hgrow (limits : Limits α) : grow limits 0 .start [sp] =
      { breaks := [], toEnd := some 0 } := grow_concat_space h limits 0 .start []
  have hbreaks (limits : Limits α) : findBreaks limits [sp] = some [0] := by
    have hzero : (startPaths [sp].length : Array (Option (Path α)))[0]? =
        some (some (Path.along [])) := startPaths_zero (by simp)
    rw [findBreaks_eq, searchFrom, hzero]
    dsimp only
    rw [hgrow]
    rfl
  have hline : (Line.ofInstructions [sp] true : Line α) = .blank :=
    ofInstructions_concat_space [] h.discardable true
  unfold breakLines
  rw [if_neg (by simp), attemptBreaks]
  dsimp only
  rw [hbreaks]
  show (if justify then padLast width fonts [.ofInstructions [sp] true]
    else [.ofInstructions [sp] true]) = _
  rw [hline]
  cases justify <;> rfl

end

end Paragraph
end Galley
