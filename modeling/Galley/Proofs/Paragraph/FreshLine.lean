import Galley.Proofs.Paragraph.Handout

/-
Where a block starts.

A block that is opened inside a line ends that line first.  Whether the line is open is read off a
flag, which takes note of everything that is freshly read.  The start of a block that ended a line
comes out of those that waited, and the flag takes no note of it: if it has an indent, the line has
something visible on it and still counts as not open.  A block opened right after it starts on the
same line.

That is the only way in which a block fails to start on a fresh line.  `paragraphStart_fresh_iff`
says exactly what the flag tells, and exactly when something visible is before the start of a block
on its line.
-/

namespace Galley
namespace Paragraph

open Style

variable {α : Type} [Scalar α]

omit [Scalar α] in
/-- Starts a block. -/
def Instruction.startsParagraph (i : Instruction α) : Bool :=
  match i.kind with
  | .paragraphStart _ => true
  | _ => false

omit [Scalar α] in
/-- What was handed out since the last forced break. -/
def openLine (out : List (Handed α)) : List (Handed α) :=
  out.rtakeWhile fun j => !j.item.isForcedBreak

omit [Scalar α] in
theorem openLine_concat (out : List (Handed α)) (j : Handed α) :
    openLine (out ++ [j]) = if j.item.isForcedBreak then [] else openLine out ++ [j] := by
  unfold openLine
  rw [List.rtakeWhile_concat]
  cases j.item.isForcedBreak <;> rfl

/-- Something visible is on the line. -/
def ShowsOn (line : List (Handed α)) : Prop := ∃ j ∈ line, j.item.isVisible = true

/-- Something visible is on the line that did not wait. -/
def ReadsOn (line : List (Handed α)) : Prop :=
  ∃ j ∈ line, j.waited = false ∧ j.item.isVisible = true

/-- The line begins with a visible indent that waited for the break before it. -/
def StartsIndented (line : List (Handed α)) : Prop :=
  ∃ j rest, line = j :: rest ∧ j.waited = true ∧ j.item.isVisible = true

theorem readsOn_concat (line : List (Handed α)) (j : Handed α) :
    ReadsOn (line ++ [j]) ↔
      (j.waited = false ∧ j.item.isVisible = true) ∨ ReadsOn line := by
  constructor
  · rintro ⟨k, hk, hread⟩
    rcases List.mem_append.1 hk with hk | hk
    · exact Or.inr ⟨k, hk, hread⟩
    · rw [List.mem_singleton.1 hk] at hread
      exact Or.inl hread
  · rintro (hread | ⟨k, hk, hread⟩)
    · exact ⟨j, List.mem_append_right _ (List.mem_singleton_self j), hread⟩
    · exact ⟨k, List.mem_append_left _ hk, hread⟩

theorem not_readsOn_nil : ¬ ReadsOn ([] : List (Handed α)) := by
  rintro ⟨j, hj, -⟩
  cases hj

/-- What the line and the flag keep to.  At most one instruction waits, and the line is empty as
long as it does, so that what has waited stands at the head of its line. -/
structure LineNoted (out : List (Handed α)) (s : Standing α) : Prop where
  lineOpen : s.lineOpen = true ↔ ReadsOn (openLine out)
  tail : ∀ j ∈ (openLine out).tail, j.waited = false
  pushed : s.pushed = [] ∨ (∃ i, s.pushed = [i]) ∧ openLine out = []

theorem lineNoted_start (s : Standing α) (hp : s.pushed = []) (hl : s.lineOpen = false) :
    LineNoted [] s where
  lineOpen := by
    rw [hl]
    exact iff_of_false (by decide) not_readsOn_nil
  tail := by
    intro j hj
    cases hj
  pushed := Or.inl hp

/-- Something freshly read is noted, wherever the parser goes with it. -/
theorem LineNoted.note {out : List (Handed α)} {s t : Standing α} (h : LineNoted out s)
    (i : Instruction α) (hp : t.pushed = []) (hl : t.lineOpen = s.lineOpen) :
    LineNoted (out ++ [{ item := i, waited := false }]) (t.note i) where
  lineOpen := by
    rw [openLine_concat, Standing.note_lineOpen, hl]
    cases hf : i.isForcedBreak with
    | true => exact iff_of_false (by simp) not_readsOn_nil
    | false =>
      rw [if_neg (by decide), readsOn_concat, ← h.lineOpen]
      simp
  tail := by
    intro j hj
    rw [openLine_concat] at hj
    split at hj
    · cases hj
    · cases hline : openLine out with
      | nil =>
        rw [hline] at hj
        cases hj
      | cons first rest =>
        rw [hline] at hj
        rcases List.mem_append.1 hj with hj | hj
        · exact h.tail j (by rwa [hline])
        · rw [List.mem_singleton.1 hj]
  pushed := Or.inl (by rw [Standing.note_pushed, hp])

theorem LineNoted.step {setup : Setup α} {out : List (Handed α)} {s t : Standing α}
    {i : Instruction α} (hout : Handout setup s i t) (h : LineNoted out s) :
    LineNoted (out ++ [{ item := i, waited := !s.pushed.isEmpty }]) t := by
  have hfresh (hp : s.pushed = []) : (!s.pushed.isEmpty) = false := by rw [hp]; rfl
  cases hout with
  | @waiting i rest hp =>
    -- the line is empty, and the one that waited comes to stand at its head
    obtain ⟨⟨j, hj⟩, hempty⟩ := h.pushed.resolve_left (by simp [hp])
    have hrest : rest = [] := by
      rw [hp] at hj
      exact (List.cons.inj hj).2
    have hclosed : ¬ s.lineOpen = true := by
      rw [h.lineOpen, hempty]
      exact not_readsOn_nil
    have hwaited : (!s.pushed.isEmpty) = true := by rw [hp]; rfl
    rw [hwaited]
    refine ⟨?_, ?_, Or.inl hrest⟩
    · rw [openLine_concat, hempty]
      refine iff_of_false hclosed ?_
      split
      · exact not_readsOn_nil
      · rw [readsOn_concat]
        rintro (⟨hread, -⟩ | hread)
        · cases hread
        · exact not_readsOn_nil hread
    · intro k hk
      rw [openLine_concat, hempty] at hk
      split at hk <;> cases hk
  | text hp _ _ =>
    rw [hfresh hp]
    exact h.note _ hp rfl
  | void hp _ =>
    rw [hfresh hp]
    exact h.note _ hp rfl
  | opening hp _ _ _ =>
    rw [hfresh hp]
    exact h.note _ hp rfl
  | openingInLine hp _ _ _ =>
    have hempty : openLine
        (out ++ [⟨.ofKind .lineBreak s.state setup.fonts, !s.pushed.isEmpty⟩]) = [] := by
      rw [openLine_concat]
      rfl
    refine ⟨?_, ?_, Or.inr ⟨⟨_, rfl⟩, hempty⟩⟩
    · rw [hempty]
      exact iff_of_false (by simp) not_readsOn_nil
    · rw [hempty]
      intro j hj
      cases hj
  | closing hp _ =>
    rw [hfresh hp]
    exact h.note _ hp rfl

theorem lineNoted_of_reads {text : String} {root : StyleState α} {setup : Setup α}
    {out : List (Handed α)} {p : Parser α} (h : Reads (.ofText text root setup) out p) :
    LineNoted out p.standing :=
  (h.keep (lineNoted_start _ rfl rfl) fun hnoted hout => hnoted.step hout).2

/-- Visible is what was noted, and an indent at the head of the line that waited. -/
theorem LineNoted.showsOn_iff {out : List (Handed α)} {s : Standing α} (h : LineNoted out s) :
    ShowsOn (openLine out) ↔ ReadsOn (openLine out) ∨ StartsIndented (openLine out) := by
  constructor
  · rintro ⟨j, hj, hvisible⟩
    cases hw : j.waited with
    | false => exact Or.inl ⟨j, hj, hw, hvisible⟩
    | true =>
      cases hline : openLine out with
      | nil =>
        rw [hline] at hj
        cases hj
      | cons first rest =>
        rw [hline] at hj
        rcases List.mem_cons.1 hj with rfl | hj
        · exact Or.inr ⟨j, rest, rfl, hw, hvisible⟩
        · have := h.tail j (by rwa [hline])
          rw [hw] at this
          cases this
  · rintro (⟨j, hj, -, hvisible⟩ | ⟨j, rest, hline, -, hvisible⟩)
    · exact ⟨j, hj, hvisible⟩
    · exact ⟨j, by rw [hline]; exact List.mem_cons_self, hvisible⟩

/-- A block starts where nothing has been noted on the line. -/
theorem Handout.not_readsOn {setup : Setup α} {out : List (Handed α)} {s t : Standing α}
    {i : Instruction α} (hout : Handout setup s i t) (h : LineNoted out s)
    (hi : i.startsParagraph = true) : ¬ ReadsOn (openLine out) := by
  cases hout with
  | waiting hp =>
    obtain ⟨-, hempty⟩ := h.pushed.resolve_left (by simp [hp])
    rw [hempty]
    exact not_readsOn_nil
  | text hp hk _ => simp [Instruction.startsParagraph, hk] at hi
  | void hp hk =>
    rcases hk with rfl | rfl
    · cases hi
    · cases hi
  | opening hp hk hd hl =>
    cases hk with
    | inline => cases hi
    | link => cases hi
    | block indent =>
      rw [← h.lineOpen, hl rfl]
      decide
  | openingInLine => cases hi
  | @closing opened _ hp ho =>
    cases hscope : opened.scope <;> rw [hscope] at hi <;> cases hi

/-- While a text is read, the flag tells exactly whether something visible was read since the last
forced break, not counting what waited for an inserted break.  It tells whether something visible
was handed out exactly when no indent that waited stands alone on the line.  Before the start of a
block something visible is on the line exactly when the line begins with such an indent. -/
theorem paragraphStart_fresh_iff {text : String} {root : StyleState α} {setup : Setup α}
    {out : List (Handed α)} {p : Parser α} (h : Reads (.ofText text root setup) out p) :
    (p.lineOpen = true ↔ ReadsOn (openLine out)) ∧
      ((p.lineOpen = true ↔ ShowsOn (openLine out)) ↔
        ¬ (StartsIndented (openLine out) ∧ ¬ ReadsOn (openLine out))) ∧
      ∀ i q, p.next = (.ok (some i), q) → i.startsParagraph = true →
        (ShowsOn (openLine out) ↔ StartsIndented (openLine out)) := by
  have hnoted := lineNoted_of_reads h
  have hflag : p.lineOpen = true ↔ ReadsOn (openLine out) := hnoted.lineOpen
  have hshows := hnoted.showsOn_iff
  refine ⟨hflag, ?_, ?_⟩
  · rw [hflag, hshows]
    tauto
  · intro i q hn hi
    have hnone := (Parser.handout_of_next hn).2.not_readsOn hnoted hi
    rw [hshows]
    exact or_iff_right hnone

/-! ## A block in an indented block -/

/-- The text can be read to its end, a block starts at index `n` of what it hands out, and what is
before the block passes a check. -/
def blockAt (n : Nat) (check : List (Handed Rat) → Bool) (p : Parser Rat) : Bool :=
  match p.handouts.1 with
  | .ok out => (out[n]?.any fun j => j.item.startsParagraph) && check (out.take n)
  | .error _ => false

theorem exists_block {n : Nat} (check : List (Handed Rat) → Bool) {p : Parser Rat}
    (h : blockAt n check p = true) :
    ∃ out r front j back, p.handouts = (.ok out, r) ∧ out = front ++ j :: back ∧
      j.item.startsParagraph = true ∧ check front = true := by
  unfold blockAt at h
  split at h
  · next out hout =>
    rw [Bool.and_eq_true, Option.any_eq_true] at h
    obtain ⟨⟨j, hj, hblock⟩, hcheck⟩ := h
    obtain ⟨hlt, rfl⟩ := List.getElem?_eq_some_iff.1 hj
    refine ⟨out, p.handouts.2, out.take n, out[n], out.drop (n + 1), ?_, ?_, hblock, hcheck⟩
    · rw [← hout]
    · rw [List.getElem_cons_drop, List.take_append_drop]
  · cases h

instance (line : List (Handed Rat)) : Decidable (ShowsOn line) :=
  inferInstanceAs (Decidable (∃ j ∈ line, j.item.isVisible = true))

/-- A word, and an indented paragraph with a centred block in front. -/
def Sample.nestedBlocks : Parser Rat := parser "x<p><center>y</center></p>"

theorem nestedBlocks_block :
    ∃ out r front j back, Sample.nestedBlocks.handouts = (.ok out, r) ∧
      out = front ++ j :: back ∧ j.item.startsParagraph = true ∧
        decide (ShowsOn (openLine front)) = true :=
  exists_block (n := 3) (fun front => decide (ShowsOn (openLine front))) (by decide +kernel)

/-- The centred block starts on a line that begins with the indent of the paragraph. -/
theorem paragraphStart_fresh_nested :
    ∃ out p i q, Reads Sample.nestedBlocks out p ∧ p.next = (.ok (some i), q) ∧
      i.startsParagraph = true ∧ p.lineOpen = false ∧ StartsIndented (openLine out) := by
  obtain ⟨out, r, front, j, back, hout, rfl, hblock, hshows⟩ := nestedBlocks_block
  obtain ⟨s, hreads, -⟩ := reads_of_handouts hout
  obtain ⟨p, q, hfront, hn⟩ := hreads.split
  obtain ⟨hflag, -, hblocks⟩ := paragraphStart_fresh_iff hfront
  have hnone := (Parser.handout_of_next hn).2.not_readsOn (lineNoted_of_reads hfront) hblock
  refine ⟨front, p, j.item, q, hfront, hn, hblock, ?_, ?_⟩
  · rw [← hflag, Bool.not_eq_true] at hnone
    exact hnone
  · exact (hblocks j.item q hn hblock).1 (of_decide_eq_true hshows)

/-- So the text parses, and has a block with something visible before it on its line. -/
theorem block_after_indent :
    ∃ out r front j back, Sample.nestedBlocks.handouts = (.ok out, r) ∧
      out = front ++ j :: back ∧ j.item.startsParagraph = true ∧ ShowsOn (openLine front) := by
  obtain ⟨out, r, front, j, back, hout, hsplit, hblock, hshows⟩ := nestedBlocks_block
  exact ⟨out, r, front, j, back, hout, hsplit, hblock, of_decide_eq_true hshows⟩

end Paragraph
end Galley
