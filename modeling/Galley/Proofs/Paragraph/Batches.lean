import Galley.Proofs.Paragraph.Feeds

/-
Lines handed out in batches.

A caller may ask for single lines, fill boxes of any height, ask whether anything is left and give
the line it took last back, in any order: as long as all requests are for one width, the lines it
holds together with those still to come are the lines of the text laid out at once.
`Exchange.perform_keeps` is the step and `fill_in_batches` the theorem, which also says when a
batch ends.
-/

namespace Galley
namespace Paragraph

variable {α : Type} [Scalar α]

/-- What lines take of a box, added up in their order. -/
def boxHeight (spacing : α) (lines : List (Line α)) : α :=
  lines.foldl (fun used line => used + (line.height + spacing)) 0

theorem boxHeight_concat (spacing : α) (lines : List (Line α)) (line : Line α) :
    boxHeight spacing (lines ++ [line]) = boxHeight spacing lines + (line.height + spacing) := by
  show (lines ++ [line]).foldl _ _ = _
  rw [List.foldl_append]
  rfl

namespace Typesetter

/-- A batch for a box, with the lines that come after it and the typesetter that has handed it
out. -/
structure Batch (width height spacing : α) (batch rest : List (Line α)) (c : Typesetter α) :
    Prop where
  fits : batch.length ≤ 1 ∨ ¬ height + Scalar.epsilon < boxHeight spacing batch
  pageBreak : ∀ line ∈ batch.dropLast, line.pageBreak = false
  /-- The first of the rest comes next. -/
  nextLine : (c.nextLine width).1 = .ok rest.head?
  lines : (c.lines width).1 = .ok rest
  /-- The text is at its end, the batch ends its column, or there is no room for the next line. -/
  ends : rest = [] ∧ c.done.1 = .ok true ∨ (∃ line ∈ batch.getLast?, line.pageBreak = true) ∨
    batch ≠ [] ∧ ∃ line ∈ rest.head?,
      height + Scalar.epsilon < boxHeight spacing batch + (line.height + spacing)

variable {b c : Typesetter α} {width height spacing : α} {line : Line α}
  {batch taken rest : List (Line α)} {P : Instruction α → Prop}

/-! ## One batch -/

theorem lines_cons (h : b.nextLine width = (.ok (some line), c))
    (hrest : (c.lines width).1 = .ok rest) : (b.lines width).1 = .ok (line :: rest) := by
  rw [lines_of_next h, hrest]
  rfl

theorem Feeds.nextLine_eq_head (h : Feeds P b) (hlines : (b.lines width).1 = .ok rest) :
    (b.nextLine width).1 = .ok rest.head? := by
  obtain ⟨r, c, hnext, hc, -⟩ := h.next width
  rw [hnext]
  cases r with
  | none =>
    rw [lines_of_end hnext] at hlines
    cases hlines
    rfl
  | some line =>
    obtain ⟨more, hmore, -⟩ := hc.lines_ok width
    rw [lines_cons hnext hmore] at hlines
    cases hlines
    rfl

/-- Lines that a box has taken without coming to its end. -/
structure InBox (height spacing : α) (taken : List (Line α)) : Prop where
  fits : taken.length ≤ 1 ∨ ¬ height + Scalar.epsilon < boxHeight spacing taken
  nonempty : taken ≠ []
  unbroken : ∀ line ∈ taken, line.pageBreak = false

theorem InBox.concat (h : InBox height spacing taken)
    (hroom : ¬ height + Scalar.epsilon < boxHeight spacing taken + (line.height + spacing))
    (hbreak : line.pageBreak = false) : InBox height spacing (taken ++ [line]) where
  fits := by
    rw [boxHeight_concat]
    exact Or.inr hroom
  nonempty := by simp
  unbroken := by
    intro other hother
    rcases List.mem_append.1 hother with hother | hother
    · exact h.unbroken other hother
    · rw [List.mem_singleton.1 hother]
      exact hbreak

theorem InBox.batch_end (h : InBox height spacing taken) (hc : Spent c) :
    Batch width height spacing taken [] c where
  fits := h.fits
  pageBreak := fun line hline => h.unbroken line (List.mem_of_mem_dropLast hline)
  nextLine := by
    obtain ⟨d, hd⟩ := hc.nextLine width
    rw [hd]
    rfl
  lines := hc.lines width
  ends := Or.inl ⟨rfl, hc.done⟩

theorem InBox.batch_full (h : InBox height spacing taken)
    (hfull : height + Scalar.epsilon < boxHeight spacing taken + (line.height + spacing))
    (hrest : (c.lines width).1 = .ok rest) :
    Batch width height spacing taken (line :: rest) (c.unshift line) where
  fits := h.fits
  pageBreak := fun line hline => h.unbroken line (List.mem_of_mem_dropLast hline)
  nextLine := rfl
  lines := lines_cons (nextLine_unshift c line width) hrest
  ends := Or.inr (Or.inr ⟨h.nonempty, line, rfl, hfull⟩)

theorem InBox.batch_break (h : InBox height spacing taken)
    (hroom : ¬ height + Scalar.epsilon < boxHeight spacing taken + (line.height + spacing))
    (hbreak : line.pageBreak = true) (hc : Feeds P c) (hrest : (c.lines width).1 = .ok rest) :
    Batch width height spacing (taken ++ [line]) rest c where
  fits := by
    rw [boxHeight_concat]
    exact Or.inr hroom
  pageBreak := by
    rw [List.dropLast_concat]
    exact h.unbroken
  nextLine := hc.nextLine_eq_head hrest
  lines := hrest
  ends := Or.inr (Or.inl ⟨line, by rw [List.getLast?_concat]; rfl, hbreak⟩)

/-- A box that holds lines already is filled on. -/
theorem Feeds.fillMore (h : Feeds P b) (htaken : InBox height spacing taken) :
    ∃ more rest c, fillMore width height spacing (boxHeight spacing taken) b = (.ok more, c) ∧
      Feeds P c ∧ (∀ line ∈ more, ∀ i ∈ line.instructions, P i) ∧
      (b.lines width).1 = .ok (more ++ rest) ∧
      Batch width height spacing (taken ++ more) rest c := by
  -- `used` is a sum that the loop keeps, and the invariant is that it is the height of what is
  -- taken; the cases are the exits in their order, and the last one goes on
  generalize hused : boxHeight spacing taken = used
  fun_induction Typesetter.fillMore width height spacing used b generalizing taken with
  | case1 used b e c hn =>
    obtain ⟨r, d, hok, -⟩ := h.next width
    rw [hn] at hok
    cases hok
  | case2 used b c hn =>
    obtain ⟨r, d, hok, hc, -, hspent⟩ := h.next width
    rw [hn] at hok
    cases hok
    refine ⟨[], [], c, rfl, hc, by simp, by rw [lines_of_end hn]; rfl, ?_⟩
    rw [List.append_nil]
    exact htaken.batch_end (hspent rfl)
  | case3 used b line c hn _ hfull =>
    obtain ⟨r, d, hok, hc, hline, -⟩ := h.next width
    rw [hn] at hok
    cases hok
    obtain ⟨rest, hrest, -⟩ := hc.lines_ok width
    subst hused
    refine ⟨[], line :: rest, c.unshift line, rfl, hc.unshift (hline line rfl), by simp,
      lines_cons hn hrest, ?_⟩
    rw [List.append_nil]
    exact htaken.batch_full hfull hrest
  | case4 used b line c hn _ hroom hbreak =>
    obtain ⟨r, d, hok, hc, hline, -⟩ := h.next width
    rw [hn] at hok
    cases hok
    obtain ⟨rest, hrest, -⟩ := hc.lines_ok width
    subst hused
    refine ⟨[line], rest, c, rfl, hc, ?_, lines_cons hn hrest,
      htaken.batch_break hroom hbreak hc hrest⟩
    exact List.forall_mem_cons.2 ⟨hline line rfl, by simp⟩
  | case5 used b line c hn _ hroom hbreak more d hmore ih =>
    obtain ⟨r, d', hok, hc, hline, -⟩ := h.next width
    rw [hn] at hok
    cases hok
    subst hused
    have hbox := htaken.concat hroom (Bool.eq_false_of_not_eq_true hbreak)
    obtain ⟨next, rest, e, hfill, he, hP, hlines, hbatch⟩ :=
      ih hc hbox (boxHeight_concat spacing taken line)
    rw [hmore] at hfill
    cases hfill
    refine ⟨line :: next, rest, d, rfl, he, List.forall_mem_cons.2 ⟨hline line rfl, hP⟩,
      lines_cons hn hlines, ?_⟩
    rw [List.append_assoc] at hbatch
    exact hbatch

/-- Filling a box does not fail, and takes the next lines. -/
theorem Feeds.fill (h : Feeds P b) (width height spacing : α) :
    ∃ batch rest c, b.fill width height spacing = (.ok batch, c) ∧ Feeds P c ∧
      (∀ line ∈ batch, ∀ i ∈ line.instructions, P i) ∧
      (b.lines width).1 = .ok (batch ++ rest) ∧ Batch width height spacing batch rest c := by
  obtain ⟨r, c, hn, hc, hP, hspent⟩ := h.next width
  unfold Typesetter.fill
  rw [hn]
  cases r with
  | none =>
    have hc' := hspent rfl
    refine ⟨[], [], c, rfl, hc, by simp, by rw [lines_of_end hn]; rfl, ?_⟩
    obtain ⟨d, hd⟩ := hc'.nextLine width
    exact ⟨Or.inl (by simp), by simp, by rw [hd]; rfl, hc'.lines width, Or.inl ⟨rfl, hc'.done⟩⟩
  | some line =>
    have hline := hP line rfl
    by_cases hbreak : line.pageBreak = true
    · obtain ⟨rest, hrest, -⟩ := hc.lines_ok width
      refine ⟨[line], rest, c, by dsimp only; rw [if_pos hbreak], hc,
        List.forall_mem_cons.2 ⟨hline, by simp⟩, lines_cons hn hrest, ?_⟩
      exact ⟨Or.inl (by simp), by simp, hc.nextLine_eq_head hrest, hrest,
        Or.inr (Or.inl ⟨line, rfl, hbreak⟩)⟩
    · have hbox : InBox height spacing [line] :=
        ⟨Or.inl (by simp), by simp, by simpa using hbreak⟩
      obtain ⟨more, rest, d, hmore, hd, hPmore, hlines, hbatch⟩ := hc.fillMore hbox
      refine ⟨line :: more, rest, d, ?_, hd, List.forall_mem_cons.2 ⟨hline, hPmore⟩,
        lines_cons hn hlines, hbatch⟩
      dsimp only
      rw [if_neg hbreak, show 0 + (line.height + spacing) = boxHeight spacing [line] from rfl,
        hmore]
      rfl

end Typesetter

/-! ## Any sequence of requests -/

/-- What can be asked of a typesetter. -/
inductive Request (α : Type) where
  | nextLine
  | fill (height spacing : α)
  | done
  /-- Give the last line back that was taken, if there is one. -/
  | unshift

/-- The lines that a caller holds, and the typesetter that it has them from. -/
structure Exchange (α : Type) where
  taken : List (Line α)
  typesetter : Typesetter α

namespace Exchange

def perform (width : α) (s : Exchange α) : Request α → Except Error (Exchange α)
  | .nextLine =>
    match s.typesetter.nextLine width with
    | (.error e, _) => .error e
    | (.ok line, typesetter) => .ok { taken := s.taken ++ line.toList, typesetter }
  | .fill height spacing =>
    match s.typesetter.fill width height spacing with
    | (.error e, _) => .error e
    | (.ok batch, typesetter) => .ok { taken := s.taken ++ batch, typesetter }
  | .done =>
    match s.typesetter.done with
    | (.error e, _) => .error e
    | (.ok _, typesetter) => .ok { s with typesetter }
  | .unshift =>
    match s.taken.getLast? with
    | none => .ok s
    | some line =>
      .ok { taken := s.taken.dropLast, typesetter := s.typesetter.unshift line }

/-- The lines that are taken and those still to come are all lines. -/
structure Keeps (width : α) (all : List (Line α)) (s : Exchange α) : Prop where
  feeds : s.typesetter.Feeds (fun _ => True)
  left : ∃ left, (s.typesetter.lines width).1 = .ok left ∧ all = s.taken ++ left

variable {width : α} {all : List (Line α)} {s : Exchange α}

theorem perform_keeps (h : Keeps width all s) (request : Request α) :
    ∃ t, s.perform width request = .ok t ∧ Keeps width all t := by
  obtain ⟨hfeeds, left, hleft, hall⟩ := h
  cases request with
  | nextLine =>
    obtain ⟨r, c, hnext, hc, -, hspent⟩ := hfeeds.next width
    obtain ⟨rest, hrest, -⟩ := hc.lines_ok width
    refine ⟨{ taken := s.taken ++ r.toList, typesetter := c }, ?_, hc, ?_⟩
    · unfold perform
      rw [hnext]
    · cases r with
      | none =>
        rw [Typesetter.lines_of_end hnext] at hleft
        cases hleft
        exact ⟨[], (hspent rfl).lines width, by simpa using hall⟩
      | some line =>
        refine ⟨rest, hrest, ?_⟩
        rw [Typesetter.lines_cons hnext hrest] at hleft
        cases hleft
        rw [hall, List.append_assoc]
        rfl
  | fill height spacing =>
    obtain ⟨batch, rest, c, hfill, hc, -, hlines, hbatch⟩ := hfeeds.fill width height spacing
    rw [hlines] at hleft
    cases hleft
    refine ⟨{ taken := s.taken ++ batch, typesetter := c }, ?_, hc, rest, hbatch.lines, ?_⟩
    · unfold perform
      dsimp only
      rw [hfill]
    · rw [hall, List.append_assoc]
  | done =>
    obtain ⟨r, c, hdone, hc, hlines, -⟩ := hfeeds.asked width
    refine ⟨{ s with typesetter := c }, ?_, hc, left, ?_, hall⟩
    · unfold perform
      rw [hdone]
    · rw [hlines]
      exact hleft
  | unshift =>
    cases hlast : s.taken.getLast? with
    | none =>
      refine ⟨s, ?_, hfeeds, left, hleft, hall⟩
      unfold perform
      rw [hlast]
    | some line =>
      obtain ⟨taken, htaken⟩ := List.getLast?_eq_some_iff.1 hlast
      refine ⟨{ taken := s.taken.dropLast, typesetter := s.typesetter.unshift line }, ?_,
        hfeeds.unshift (by simp), line :: left, ?_, ?_⟩
      · unfold perform
        rw [hlast]
      · exact Typesetter.lines_cons (Typesetter.nextLine_unshift _ line width) hleft
      · rw [hall, htaken, List.dropLast_concat, List.append_assoc]
        rfl

def performAll (width : α) (s : Exchange α) (requests : List (Request α)) :
    Except Error (Exchange α) :=
  requests.foldlM (perform width) s

theorem performAll_keeps (h : Keeps width all s) (requests : List (Request α)) :
    ∃ t, s.performAll width requests = .ok t ∧ Keeps width all t := by
  induction requests generalizing s with
  | nil => exact ⟨s, rfl, h⟩
  | cons request requests ih =>
    obtain ⟨t, ht, hkeeps⟩ := perform_keeps h request
    obtain ⟨u, hu, hdone⟩ := ih hkeeps
    refine ⟨u, ?_, hdone⟩
    show (request :: requests).foldlM (perform width) s = _
    rw [List.foldlM_cons, ht]
    exact hu

end Exchange

/-- What can be had next from a typesetter of which the lines `left` are left. -/
structure HandsOut (width : α) (b : Typesetter α) (left : List (Line α)) : Prop where
  lines : (b.lines width).1 = .ok left
  nextLine : (b.nextLine width).1 = .ok left.head?
  done : ∃ r, b.done.1 = .ok r ∧ (r = true → left = [])
  fill : ∀ height spacing, ∃ batch rest c, b.fill width height spacing = (.ok batch, c) ∧
    left = batch ++ rest ∧ Typesetter.Batch width height spacing batch rest c

theorem Typesetter.Feeds.handsOut {P : Instruction α → Prop} {b : Typesetter α} {width : α}
    {left : List (Line α)} (h : b.Feeds P) (hleft : (b.lines width).1 = .ok left) :
    HandsOut width b left where
  lines := hleft
  nextLine := h.nextLine_eq_head hleft
  done := by
    obtain ⟨r, c, hdone, -, hlines, hspent⟩ := h.asked width
    refine ⟨r, by rw [hdone], ?_⟩
    intro hr
    have hnone := (hspent hr).lines width
    rw [hlines, hleft] at hnone
    cases hnone
    rfl
  fill := by
    intro height spacing
    obtain ⟨batch, rest, c, hfill, -, -, hlines, hbatch⟩ := h.fill width height spacing
    rw [hleft] at hlines
    cases hlines
    exact ⟨batch, rest, c, hfill, rfl, hbatch⟩

/-- However the lines of a text are asked for, no request fails, the lines that the caller holds
and those still to come are all its lines, and the next request goes by what is left. -/
theorem fill_in_batches {text : String} {root : Style.StyleState α} {setup : Setup α}
    {out : List (Handed α)} {q : Parser α}
    (h : (Parser.ofText text root setup).handouts = (.ok out, q)) (algorithm : Algorithm)
    (optimal : OptimalConfig α) (justify : Bool) (width : α) :
    ∃ all, ((Typesetter.ofText text root setup algorithm optimal justify).lines width).1 =
        .ok all ∧
      ∀ requests, ∃ s left,
        Exchange.performAll width
          { taken := [], typesetter := .ofText text root setup algorithm optimal justify }
          requests = .ok s ∧
        all = s.taken ++ left ∧ HandsOut width s.typesetter left := by
  have hfeeds := Typesetter.feeds_ofText h algorithm optimal justify (P := fun _ => True)
    (fun _ _ => trivial) (fun _ _ _ => trivial)
  obtain ⟨all, hall, -⟩ := hfeeds.lines_ok width
  have hstart : Exchange.Keeps width all
      { taken := [], typesetter := .ofText text root setup algorithm optimal justify } :=
    ⟨hfeeds, all, hall, rfl⟩
  refine ⟨all, hall, ?_⟩
  intro requests
  obtain ⟨s, hs, hkeeps, left, hleft, hsplit⟩ := Exchange.performAll_keeps hstart requests
  exact ⟨s, left, hs, hsplit, hkeeps.handsOut hleft⟩

/-- Three words, of which two fit on a line. -/
def Sample.threeWords : Typesetter Rat := .ofText "aaa bbb ccc" state setup .optimal .standard true

theorem fill_in_batches_words :
    ∃ out q, (Parser.ofText "aaa bbb ccc" Sample.state Sample.setup).handouts = (.ok out, q) ∧
      ∃ all, (Sample.threeWords.lines 42).1 = .ok all ∧ all.length = 2 ∧
        ∀ requests, ∃ s left,
          Exchange.performAll 42 { taken := [], typesetter := Sample.threeWords } requests =
            .ok s ∧
          all = s.taken ++ left ∧ HandsOut 42 s.typesetter left := by
  have hread : ((Sample.parser "aaa bbb ccc").handouts.1.map fun out => out.length) = .ok 5 := by
    decide +kernel
  obtain ⟨out, hout, -⟩ := exists_of_map_ok hread
  have h : (Parser.ofText "aaa bbb ccc" Sample.state Sample.setup).handouts =
      (.ok out, (Sample.parser "aaa bbb ccc").handouts.2) := Prod.ext hout rfl
  have hcount : (Typesetter.linesWithin 42 3 Sample.threeWords).map List.length = some 2 := by
    decide +kernel
  obtain ⟨lines, hlines, htwo⟩ := Option.map_eq_some_iff.1 hcount
  obtain ⟨all, hall, hrequests⟩ := fill_in_batches h .optimal .standard true 42
  have hsame : all = lines :=
    Except.ok.inj (hall.symm.trans (Typesetter.lines_of_within hlines))
  exact ⟨out, _, h, all, hall, by rw [hsame]; exact htwo, hrequests⟩

end Paragraph
end Galley
