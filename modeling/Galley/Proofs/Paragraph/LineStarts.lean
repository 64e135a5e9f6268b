import Galley.Proofs.Paragraph.Conservation
import Galley.Proofs.Paragraph.SoftLine
import Galley.Proofs.Paragraph.TextLines

/-
What a line starts with behind a soft line.

Both ways of breaking leave white space at a break behind with the line that ends there, so the
next line starts with something else.  Greedy breaking also leaves closing markers behind that
follow white space, and gives back nothing that holds white space.  What neither looks at is white
space behind a thing that shows nothing, where such a thing starts the line.

`StartsClear` says what is so of each line behind a soft one (`linesOf_startClear`).
-/

namespace Galley
namespace Paragraph

variable {α : Type} [Scalar α]

/-- White space comes before the first visible instruction. -/
def leadsWithSpace (items : List (Instruction α)) : Bool :=
  (items.takeWhile fun i => !i.isVisible).any Instruction.discardable

theorem leadsWithSpace_cons {i : Instruction α} (items : List (Instruction α))
    (hi : i.isVisible = false) :
    leadsWithSpace (i :: items) = (i.discardable || leadsWithSpace items) := by
  unfold leadsWithSpace
  rw [List.takeWhile_cons_of_pos (by rw [hi]; rfl), List.any_cons]

theorem leadsWithSpace_of_isVisible {i : Instruction α} (items : List (Instruction α))
    (hi : i.isVisible = true) : leadsWithSpace (i :: items) = false := by
  unfold leadsWithSpace
  rw [List.takeWhile_cons_of_neg (by rw [hi]; decide)]
  rfl

/-- Nothing leads with white space that starts with things that are not, up to something
visible. -/
theorem leadsWithSpace_append_visible {front : List (Instruction α)} {i : Instruction α}
    (items : List (Instruction α)) (hfront : ∀ j ∈ front, j.discardable = false)
    (hi : i.isVisible = true) : leadsWithSpace (front ++ i :: items) = false := by
  induction front with
  | nil => exact leadsWithSpace_of_isVisible items hi
  | cons j front ih =>
    cases hj : j.isVisible with
    | true => exact leadsWithSpace_of_isVisible _ hj
    | false =>
      rw [List.cons_append, leadsWithSpace_cons _ hj, hfront j List.mem_cons_self,
        ih fun k hk => hfront k (List.mem_cons_of_mem j hk)]
      rfl

/-- White space leads only behind something that is not white space, and that `ok` allows. -/
def StartsClear (ok : Instruction α → Prop) (items : List (Instruction α)) : Prop :=
  leadsWithSpace items = true → ∃ i more, items = i :: more ∧ i.discardable = false ∧ ok i

theorem StartsClear.mono {ok ok' : Instruction α → Prop} {items : List (Instruction α)}
    (h : StartsClear ok items) (hok : ∀ i, ok i → ok' i) : StartsClear ok' items := by
  intro hlead
  obtain ⟨i, more, hitems, hd, hi⟩ := h hlead
  exact ⟨i, more, hitems, hd, hok i hi⟩

/-- White space that leads is then behind the first instruction, which shows nothing. -/
theorem StartsClear.iff {ok : Instruction α → Prop} {items : List (Instruction α)}
    (h : StartsClear ok items) :
    leadsWithSpace items = true ↔ ∃ i more, items = i :: more ∧ i.discardable = false ∧
      i.isVisible = false ∧ ok i ∧ leadsWithSpace more = true := by
  constructor
  · intro hlead
    obtain ⟨i, more, rfl, hd, hi⟩ := h hlead
    cases hvisible : i.isVisible with
    | true =>
      rw [leadsWithSpace_of_isVisible more hvisible] at hlead
      cases hlead
    | false =>
      rw [leadsWithSpace_cons more hvisible, hd, Bool.false_or] at hlead
      exact ⟨i, more, rfl, hd, hvisible, hi, hlead⟩
  · rintro ⟨i, more, rfl, -, hvisible, -, hlead⟩
    rw [leadsWithSpace_cons more hvisible, hlead, Bool.or_true]

/-! ## What a line keeps in front -/

omit [Scalar α] in
/-- Trimming keeps what is not white space, and so what comes before the first white space. -/
theorem prefix_trim {front items : List (Instruction α)} (h : front <+: items)
    (hfront : ∀ j ∈ front, j.discardable = false) : front <+: Line.trim items := by
  obtain ⟨body, tail, hitems, htrim, -⟩ := trim_split items
  obtain ⟨behind, hbehind⟩ := h
  rw [htrim]
  rw [hitems] at hbehind
  rcases List.append_eq_append_iff.1 hbehind with ⟨part, rfl, -⟩ | ⟨part, rfl, rfl⟩
  · rw [List.append_assoc]
    exact List.prefix_append front _
  · have hpart : solidPart part = part := by
      refine List.filter_eq_self.2 fun j hj => ?_
      rw [hfront j (List.mem_append_right _ hj)]
      rfl
    rw [solidPart_append, hpart, ← List.append_assoc]
    exact List.prefix_append _ _

/-- Something that goes onto a line as a whole: nothing of it is dropped, and the line cannot end
within it. -/
structure Leading (front : List (Instruction α)) : Prop where
  ne_nil : front ≠ []
  solid : ∀ j ∈ front, j.discardable = false
  unforced : ∀ j ∈ front, j.isForcedBreak = false
  unbreakable : ∀ j ∈ front.dropLast, j.breakOpportunity = false

/-- `Holds front more f`: the line holds `front` and would be cut behind it, or is about to take it
in before `more`. -/
inductive Holds (front more : List (Instruction α)) : Filling α → Prop where
  | filling {taken left : List (Instruction α)} {filled : α} (hfront : front = taken ++ left)
      (hleft : left ≠ []) : Holds front more ⟨taken, filled, none, left ++ more⟩
  | full {f : Filling α} (hline : front <+: f.line)
      (hcut : ∀ c, f.cut = some c → front.length ≤ c) : Holds front more f

theorem Holds.step {width : α} {front more : List (Instruction α)} {f g : Filling α}
    (hs : FillStep width f g) (hfront : Leading front) (h : Holds front more f) :
    Holds front more g := by
  cases h with
  | @filling taken left filled heq hleft =>
    obtain ⟨j, left, rfl⟩ := List.exists_cons_of_ne_nil hleft
    cases hs with
    | drop _ hdj =>
      rw [hfront.solid j (by simp [heq])] at hdj
      cases hdj
    | take =>
      cases left with
      | nil =>
        refine .full (by simp [heq]) fun c hc => ?_
        have hc : (if j.breakOpportunity then some (taken.length + 1) else none) = some c := hc
        split at hc
        · cases hc
          simp [heq]
        · cases hc
      | cons k left =>
        have hj : j.breakOpportunity = false := by
          apply hfront.unbreakable
          rw [heq, List.dropLast_append_of_ne_nil (by simp)]
          simp
        have hcut : cutAfter j (taken.length + 1) none = none := if_neg (by simp [hj])
        rw [hcut]
        exact .filling (by simp [heq]) (by simp)
  | full hline hcut =>
    cases hs with
    | drop => exact .full hline hcut
    | @take line rest filled cut i _ _ _ =>
      refine .full (hline.trans (List.prefix_append line [i])) fun c hc => ?_
      have hc : (if i.breakOpportunity then some (line.length + 1) else cut) = some c := hc
      split at hc
      · cases hc
        have := hline.length_le
        dsimp only at this
        omega
      · exact hcut c hc

/-- A line does not end before it holds what leads. -/
theorem FillEnd.full {width : α} {front more rest : List (Instruction α)} {f : Filling α}
    {made : Option (Line α)} (h : FillEnd width f made rest) (hfront : Leading front)
    (hholds : Holds front more f) :
    front <+: f.line ∧ ∀ c, f.cut = some c → front.length ≤ c := by
  cases hholds with
  | full hline hcut => exact ⟨hline, hcut⟩
  | @filling taken left filled heq hleft =>
    obtain ⟨j, left, rfl⟩ := List.exists_cons_of_ne_nil hleft
    have hj : j ∈ front := by simp [heq]
    cases h with
    | atBreak hforced =>
      rw [hfront.unforced j hj] at hforced
      cases hforced
    | afterSpace _ hspace =>
      rw [hfront.solid j hj] at hspace
      cases hspace

/-- A greedy line is made of what leads, and starts with it. -/
theorem prefix_greedyLine [Scalar.KeepsSign α] {width : α} {front more rest : List (Instruction α)}
    {made : Option (Line α)} (hmade : ∀ i ∈ front ++ more, i.Made) (hfront : Leading front)
    (h : greedyLine width (front ++ more) = (.ok made, rest)) :
    ∃ l, made = some l ∧ front <+: l.instructions := by
  obtain ⟨f, hsteps, hend⟩ := FillRun.of_greedyLine h
  have hholds : Holds front more f :=
    keep_of_fillSteps (fun _ _ hs hg => hg.step hs hfront) hsteps (.filling rfl hfront.ne_nil)
  obtain ⟨hline, hcut⟩ := hend.full hfront hholds
  cases made with
  | none =>
    cases hend
    exact absurd (List.prefix_nil.1 hline) hfront.ne_nil
  | some l =>
    have hrest : ∀ i ∈ f.rest, i.Made :=
      fun i hi => hmade i (subset_of_fillSteps hsteps (List.mem_append_right _ hi))
    refine ⟨l, rfl, ?_⟩
    rcases hend.line_cases hrest with ⟨passed, -, -, -, hl⟩ | ⟨c, hc, -, hl⟩
    · rw [hl]
      exact prefix_trim (hline.trans (List.prefix_append _ _)) hfront.solid
    · rw [hl]
      exact prefix_trim (List.prefix_take_iff.2 ⟨hline, hcut c hc⟩) hfront.solid

/-! ## Greedy lines -/

/-- What is left behind a soft line leads up to something visible, or with one thing that is no
closing marker. -/
inductive FreshRest : List (Instruction α) → Prop where
  | mk {front more : List (Instruction α)} {i : Instruction α} (h : Leading (front ++ [i]))
      (hi : i.isVisible = true ∨ front = [] ∧ i.isClosing = false) :
      FreshRest (front ++ [i] ++ more)

omit [Scalar α] in
theorem leading_singleton {i : Instruction α} (hd : i.discardable = false)
    (hf : i.isForcedBreak = false) : Leading [i] where
  ne_nil := by simp
  solid := by simpa using hd
  unforced := by simpa using hf
  unbreakable := by simp

section

variable [Scalar.KeepsSign α]

theorem FillEnd.fresh {width : α} {f : Filling α} {l : Line α} {rest : List (Instruction α)}
    (h : FillEnd width f (some l) rest) (hcut : CutBehind f)
    (hmade : ∀ i ∈ f.line, i.Made) (hline : ∀ i ∈ f.line, i.isForcedBreak = false)
    (hsoft : l.hardBreak = false) : FreshRest rest := by
  cases h with
  | atEnd => cases hsoft
  | atBreak => cases hsoft
  | @atCut line more filled c i hforced ho =>
    have hb : ∀ j ∈ line.drop c, j.breakOpportunity = false := hcut.carried
    have hi : i.isVisible = true := (Instruction.isVisible_iff i).2 ho.1
    rw [List.append_cons]
    refine .mk ⟨by simp, fun j hj => ?_, fun j hj => ?_, ?_⟩ (Or.inl hi)
    · rcases List.mem_append.1 hj with hj | hj
      · exact (hmade j (List.mem_of_mem_drop hj)).not_discardable (hb j hj)
      · rw [List.mem_singleton.1 hj]
        exact Instruction.not_discardable_of_isVisible hi
    · rcases List.mem_append.1 hj with hj | hj
      · exact hline j (List.mem_of_mem_drop hj)
      · rw [List.mem_singleton.1 hj]
        exact hforced
    · rw [List.dropLast_concat]
      exact hb
  | afterSpace _ _ _ _ hc =>
    cases hc with
    | atEnd => cases hsoft
    | atBreak => cases hsoft
    | @atOther passed more i _ hf hd hc =>
      have hlead : Leading ([] ++ [i]) := leading_singleton hd hf
      exact .mk hlead (Or.inr ⟨rfl, hc⟩)

theorem fresh_of_soft {width : α} {items rest : List (Instruction α)} {l : Line α}
    (hmade : ∀ i ∈ items, i.Made) (h : greedyLine width items = (.ok (some l), rest))
    (hsoft : l.hardBreak = false) : FreshRest rest := by
  obtain ⟨f, hsteps, hend⟩ := FillRun.of_greedyLine h
  refine hend.fresh ((cutBehind_start items).run hsteps) (fun i hi => ?_)
    ((unbroken_start items).run hsteps).line hsoft
  exact hmade i (subset_of_fillSteps hsteps (List.mem_append_left _ hi))

/-- There is a greedy line of what is left, and it starts clear. -/
theorem FreshRest.startsClear {width : α} {items rest : List (Instruction α)}
    {made : Option (Line α)} (hfresh : FreshRest items) (hmade : ∀ i ∈ items, i.Made)
    (h : greedyLine width items = (.ok made, rest)) :
    ∃ l, made = some l ∧ StartsClear (fun i => i.isClosing = false) l.instructions := by
  cases hfresh with
  | @mk front more i hlead hi =>
    obtain ⟨l, rfl, tail, hl⟩ := prefix_greedyLine hmade hlead h
    refine ⟨l, rfl, fun hspace => ?_⟩
    rcases hi with hi | ⟨rfl, hc⟩
    · have hfront : ∀ j ∈ front, j.discardable = false :=
        fun j hj => hlead.solid j (List.mem_append_left _ hj)
      rw [← hl, ← List.append_cons, leadsWithSpace_append_visible tail hfront hi] at hspace
      cases hspace
    · exact ⟨i, tail, hl.symm, hlead.solid i (by simp), hc⟩

/-- Behind a soft line, the next starts clear. -/
def ClearBehind (ok : Instruction α → Prop) (l next : Line α) : Prop :=
  l.hardBreak = false → StartsClear ok next.instructions

/-- Behind each soft line the next starts clear, and the last line is hard. -/
structure ClearLines (ok : Instruction α → Prop) (lines : List (Line α)) : Prop where
  chain : lines.IsChain (ClearBehind ok)
  last : ∀ l ∈ lines.getLast?, l.hardBreak = true

theorem clearLines_greedyLines (width : α) {items : List (Instruction α)}
    (hmade : ∀ i ∈ items, i.Made) :
    ClearLines (fun i => i.isClosing = false) (greedyLines width items) := by
  induction hn : items.length using Nat.strong_induction_on generalizing items with
  | _ n ih =>
    rcases greedyLines_cases width items with ⟨_, _, hlines⟩ | ⟨l, rest, hsome, hlt, hlines⟩
    · rw [hlines]
      exact ⟨List.isChain_nil, by simp⟩
    · have hmadeRest : ∀ i ∈ rest, i.Made := fun i hi => hmade i (greedyLine_subset hsome hi)
      have hrest := ih rest.length (by omega) hmadeRest rfl
      rw [hlines]
      rcases greedyLines_cases width rest with
        ⟨more, hnone, hnil⟩ | ⟨next, more, hnext, -, hcons⟩
      · rw [hnil]
        refine ⟨List.isChain_singleton l, fun k hk => ?_⟩
        obtain rfl : l = k := by simpa using hk
        -- there is a line behind a soft one
        by_contra hhard
        obtain ⟨k, hk, -⟩ :=
          (fresh_of_soft hmade hsome (by simpa using hhard)).startsClear hmadeRest hnone
        cases hk
      · rw [hcons] at hrest ⊢
        refine ⟨List.isChain_cons_cons.2 ⟨fun hsoft => ?_, hrest.chain⟩, fun k hk => ?_⟩
        · obtain ⟨k, hk, hclear⟩ := (fresh_of_soft hmade hsome hsoft).startsClear hmadeRest hnext
          obtain rfl : next = k := Option.some.inj hk
          exact hclear
        · rw [List.getLast?_cons_cons] at hk
          exact hrest.last k hk

/-! ## Lines that the search finds -/

/-- A break leads to something that is not white space. -/
theorem solid_of_mem_breaks {limits : Limits α} {items : List (Instruction α)} {s : Nat}
    {b : Break α} (hb : b ∈ breaksFrom limits items s) :
    ∃ next more, items.drop b.next = next :: more ∧ next.discardable = false := by
  obtain ⟨front, i, rest, hitems, -, hends, rfl⟩ :=
    (mem_breaks_iff limits s [] (items.drop s) b).1 hb
  obtain ⟨spaces, next, more, rfl, hspaces, hnext⟩ :=
    exists_next_of_shows ((showsMore_iff rest).1 hends.shows)
  refine ⟨next, more, ?_, hnext⟩
  show items.drop (s + front.length + 1 + leadingSpaces (spaces ++ next :: more)) = next :: more
  rw [leadingSpaces_append hspaces hnext, drop_of_break hitems]

omit [Scalar.KeepsSign α] in
/-- The first piece of a course starts as what it is cut from. -/
theorem Course.head_piece {limits : Limits α} {items : List (Instruction α)} {s t : Nat}
    {bs : List (Break α)} (h : Course limits items s bs t) {next : Instruction α}
    {more : List (Instruction α)} (hs : items.drop s = next :: more) :
    ∃ tail pieces, cutAt s (items.drop s) (bs.map Break.next) = (next :: tail) :: pieces := by
  cases h with
  | nil => exact ⟨more, [], by rw [hs]; rfl⟩
  | @cons _ _ b bs hb hn h =>
    have hlt := lt_next_of_mem hb
    obtain ⟨n, hlength⟩ : ∃ n, b.next - s = n + 1 := ⟨b.next - s - 1, by omega⟩
    have htake : (items.drop s).take (b.next - s) = next :: more.take n := by
      rw [hs, hlength, List.take_succ_cons]
    refine ⟨more.take n,
      cutAt b.next ((items.drop s).drop (b.next - s)) (bs.map Break.next), ?_⟩
    rw [List.map_cons, cutAt, htake]

omit [Scalar.KeepsSign α] in
theorem linesOfPieces_cons (piece : List (Instruction α)) (pieces : List (List (Instruction α))) :
    ∃ hard lines, linesOfPieces (piece :: pieces) = .ofInstructions piece hard :: lines := by
  cases pieces with
  | nil => exact ⟨true, [], rfl⟩
  | cons next pieces => exact ⟨false, linesOfPieces (next :: pieces), rfl⟩

theorem Course.clearLines {limits : Limits α} {items : List (Instruction α)} {s t : Nat}
    {bs : List (Break α)} (h : Course limits items s bs t) :
    ClearLines (fun _ => True) (linesOfPieces (cutAt s (items.drop s) (bs.map Break.next))) := by
  induction h with
  | nil s => exact ⟨List.isChain_singleton _, by simp [cutAt, linesOfPieces, Line.ofInstructions,
      Line.measured]⟩
  | @cons s t b bs hb hn h ih =>
    have hlt := lt_next_of_mem hb
    obtain ⟨next, more, hmore, hnext⟩ := solid_of_mem_breaks hb
    obtain ⟨tail, pieces, hpieces⟩ := h.head_piece hmore
    obtain ⟨hard, lines, hlines⟩ := linesOfPieces_cons (next :: tail) pieces
    rw [List.map_cons, cutAt, List.drop_drop, show s + (b.next - s) = b.next by omega]
    rw [hpieces] at ih ⊢
    rw [linesOfPieces, hlines]
    · rw [hlines] at ih
      refine ⟨List.isChain_cons_cons.2 ⟨fun _ _ => ?_, ih.chain⟩, fun l hl => ?_⟩
      · obtain ⟨rest, hrest⟩ : [next] <+: Line.trim (next :: tail) :=
          prefix_trim (by simp) (by simpa using hnext)
        exact ⟨next, rest, hrest.symm, hnext, trivial⟩
      · rw [List.getLast?_cons_cons] at hl
        exact ih.last l hl
    · simp

omit [Scalar.KeepsSign α] in
theorem leadsWithSpace_concat (items : List (Instruction α)) {i : Instruction α}
    (hd : i.discardable = false) : leadsWithSpace (items ++ [i]) = leadsWithSpace items := by
  induction items with
  | nil =>
    cases hi : i.isVisible with
    | true => exact leadsWithSpace_of_isVisible [] hi
    | false => rw [List.nil_append, leadsWithSpace_cons [] hi, hd, Bool.false_or]
  | cons j items ih =>
    cases hj : j.isVisible with
    | true =>
      rw [leadsWithSpace_of_isVisible items hj]
      exact leadsWithSpace_of_isVisible _ hj
    | false => rw [List.cons_append, leadsWithSpace_cons _ hj, leadsWithSpace_cons _ hj, ih]

omit [Scalar.KeepsSign α] in
/-- A strut at the end of the last line is nothing that it starts with. -/
theorem ClearLines.padLast {ok : Instruction α → Prop} {lines : List (Line α)}
    (h : ClearLines ok lines) (width : α) (fonts : Font.FontService α) :
    ClearLines ok (padLast width fonts lines) := by
  rcases padLast_cases width fonts lines with hpad | ⟨init, last, state, rfl, -, hpad⟩
  · rw [hpad]
    exact h
  · obtain ⟨hinit, -, hlast⟩ := List.isChain_append.1 h.chain
    rw [hpad]
    refine ⟨List.isChain_append.2 ⟨hinit, List.isChain_singleton _, ?_⟩, ?_⟩
    · intro l hl next hnext hsoft hlead
      obtain rfl := Option.some.inj hnext
      have hspace : (Instruction.strut (width - last.width) state fonts).discardable = false := rfl
      have hlead : leadsWithSpace (last.instructions ++
          [.strut (width - last.width) state fonts]) = true := hlead
      rw [leadsWithSpace_concat _ hspace] at hlead
      obtain ⟨i, more, hitems, hd, hi⟩ := hlast l hl last rfl hsoft hlead
      refine ⟨i, more ++ [.strut (width - last.width) state fonts], ?_, hd, hi⟩
      show last.instructions ++ [_] = _
      rw [hitems]
      rfl
    · intro l hl
      rw [List.getLast?_concat] at hl
      obtain rfl := Option.some.inj hl
      exact h.last last (by rw [List.getLast?_concat]; rfl)

omit [Scalar.KeepsSign α] in
theorem ClearLines.mono {ok ok' : Instruction α → Prop} {lines : List (Line α)}
    (h : ClearLines ok lines) (hok : ∀ i, ok i → ok' i) : ClearLines ok' lines where
  chain := h.chain.imp fun _ _ hclear hsoft => (hclear hsoft).mono hok
  last := h.last

theorem clearLines_breakLines (width : α) (config : OptimalConfig α) (justify : Bool)
    (fonts : Font.FontService α) {items : List (Instruction α)} (hmade : ∀ i ∈ items, i.Made) :
    ClearLines (fun _ => True) (breakLines width config justify fonts items) := by
  by_cases hitems : items = []
  · subst hitems
    exact ⟨List.isChain_nil, by simp [breakLines]⟩
  rcases breakLines_cases width config justify fonts hitems with heq | ⟨n, starts, hfound, heq⟩
  · rw [heq]
    exact (clearLines_greedyLines width hmade).mono fun _ _ => trivial
  · obtain ⟨bs, s, c, hbs, -, rfl⟩ := findBreaks_sound hfound
    have hlines := hbs.clearLines
    rw [List.drop_zero] at hlines
    rw [heq, List.drop_one, List.tail_cons]
    cases justify with
    | false => exact hlines
    | true => exact hlines.padLast width fonts

/-! ## The lines of a text -/

omit [Scalar.KeepsSign α] in
/-- Paragraph by paragraph, since each ends with a hard line. -/
theorem ClearLines.append {ok : Instruction α → Prop} {lines more : List (Line α)}
    (h : ClearLines ok lines) (hmore : ClearLines ok more) : ClearLines ok (lines ++ more) := by
  refine ⟨List.isChain_append.2 ⟨h.chain, hmore.chain, ?_⟩, ?_⟩
  · intro l hl next _ hsoft
    rw [h.last l hl] at hsoft
    cases hsoft
  · intro l hl
    rw [List.getLast?_append] at hl
    cases hlast : more.getLast? with
    | none =>
      rw [hlast, Option.none_or] at hl
      exact h.last l hl
    | some k =>
      rw [hlast, Option.some_or] at hl
      exact hmore.last l (hlast ▸ hl)

omit [Scalar α] [Scalar.KeepsSign α] in
theorem flatten_paragraphsOf (items : List (Instruction α)) :
    (paragraphsOf items).flatten = items := by
  induction items with
  | nil => rfl
  | cons i items ih =>
    rw [paragraphsOf]
    split
    · rw [List.flatten_cons, ih]
      rfl
    · split
      · next hnil =>
        rw [hnil] at ih
        rw [← ih]
        rfl
      · next hcons =>
        rw [hcons] at ih
        rw [← ih]
        rfl

omit [Scalar.KeepsSign α] in
/-- What holds of greedy lines, and of the lines of each paragraph that is broken at once, holds of
the lines of a text, if it holds of texts behind each other. -/
theorem linesOf_induction {P : List (Instruction α) → List (Line α) → Prop} (b : Typesetter α)
    (width : α) (items : List (Instruction α))
    (hgreedy : b.algorithm = .greedy → P items (greedyLines width items)) (hnil : P [] [])
    (hparagraph : b.algorithm = .optimal → ∀ paragraph,
      P paragraph (breakLines width b.optimal b.justify b.parser.setup.fonts paragraph))
    (happend : ∀ xs ys lines more, P xs lines → P ys more → P (xs ++ ys) (lines ++ more)) :
    P items (b.linesOf width items) := by
  unfold Typesetter.linesOf
  cases ha : b.algorithm with
  | greedy => exact hgreedy ha
  | optimal =>
    have hitems := flatten_paragraphsOf items
    dsimp only
    generalize paragraphsOf items = paragraphs at hitems ⊢
    subst hitems
    clear hgreedy
    induction paragraphs with
    | nil => exact hnil
    | cons paragraph paragraphs ih =>
      rw [List.flatMap_cons, List.flatten_cons]
      exact happend _ _ _ _ (hparagraph ha paragraph) ih

theorem linesOf_startClear (b : Typesetter α) (width : α) {items : List (Instruction α)}
    (hmade : ∀ i ∈ items, i.Made) :
    ClearLines (fun i => b.algorithm = .greedy → i.isClosing = false) (b.linesOf width items) := by
  refine linesOf_induction (P := fun items lines => (∀ i ∈ items, i.Made) →
    ClearLines (fun i => b.algorithm = .greedy → i.isClosing = false) lines) b width items
    ?_ ?_ ?_ ?_ hmade
  · exact fun _ hmade => (clearLines_greedyLines width hmade).mono fun _ hi _ => hi
  · exact fun _ => ⟨List.isChain_nil, by simp⟩
  · intro ha paragraph hmade
    refine (clearLines_breakLines width b.optimal b.justify b.parser.setup.fonts hmade).mono ?_
    intro i _ hgreedy
    cases ha.symm.trans hgreedy
  · intro xs ys lines more hlines hmore hmade
    rw [List.forall_mem_append] at hmade
    exact (hlines hmade.1).append (hmore hmade.2)

end

end Paragraph
end Galley
