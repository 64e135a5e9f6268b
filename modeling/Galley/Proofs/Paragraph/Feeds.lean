import Galley.Proofs.Paragraph.BreakLines
import Galley.Proofs.Paragraph.Typesetting
import Galley.Proofs.Paragraph.Yields

/-
A typesetter whose text is read without a failure.

`Feeds P b` says that the parser of `b` comes to its end, and that whatever is still to be handed
out has property `P`.  No call of such a typesetter fails, each keeps the property (`Feeds.next`,
`Feeds.lines_ok`), and asking whether it is done changes nothing about its lines
(`Feeds.asked`).
-/

namespace Galley
namespace Paragraph

open Source

variable {α : Type} [Scalar α]

/-! ## Only what comes next matters -/

section

variable {σ : Type} [Source σ α] {s t : σ} {items : List (Instruction α)}

theorem greedyLine_congr (h : Yields s items) (hnext : next t = next s) (width : α) :
    greedyLine width t = greedyLine width s := by
  show fillLine width [] 0 none t = fillLine width [] 0 none s
  cases h with
  | nil hs => rw [fillLine_of_end _ _ _ _ hs, fillLine_of_end _ _ _ _ (hnext.trans hs)]
  | cons hs _ => rw [fillLine_of_next _ _ _ _ hs, fillLine_of_next _ _ _ _ (hnext.trans hs)]

omit [Scalar α] in
theorem takeParagraph_congr (h : Yields s items) (hnext : next t = next s) :
    takeParagraph t = takeParagraph s := by
  cases h with
  | nil hs => rw [takeParagraph_of_end hs, takeParagraph_of_end (hnext.trans hs)]
  | cons hs _ => rw [takeParagraph_of_next hs, takeParagraph_of_next (hnext.trans hs)]

end

theorem setup_peek {p q : Parser α} {r : Option (Instruction α)} (h : p.peek = (.ok r, q)) :
    q.setup = p.setup := by
  unfold Parser.peek at h
  split at h
  · cases h
    rfl
  · split at h
    · next i u hn =>
      cases h
      show u.setup = p.setup
      exact (Parser.handout_of_next hn).1
    · next r' u hne hn =>
      cases h
      cases r with
      | none => exact (Parser.standing_of_next_none hn).1
      | some i => exact absurd rfl (hne i)

namespace Typesetter

variable {b c : Typesetter α} {width : α} {line : Line α}

/-! ## Lines, one after the other -/

theorem nextLine_of_queued {queued : List (Line α)} (h : b.queued = line :: queued) (width : α) :
    b.nextLine width = (.ok (some line), { b with queued }) := by
  unfold nextLine
  rw [h]

theorem nextLine_unshift (b : Typesetter α) (line : Line α) (width : α) :
    (b.unshift line).nextLine width = (.ok (some line), b) := rfl

/-- Everything has been handed out. -/
structure Spent (b : Typesetter α) : Prop where
  queued : b.queued = []
  parser : Yields b.parser []

/-- The text of `b` is read without a failure, and all that is still to come has property `P`. -/
structure Feeds (P : Instruction α → Prop) (b : Typesetter α) : Prop where
  parser : ∃ items, Yields b.parser items ∧ ∀ i ∈ items, P i
  queued : ∀ line ∈ b.queued, ∀ i ∈ line.instructions, P i
  /-- Paragraphs that are broken at once may be filled. -/
  strut : b.algorithm = .optimal → ∀ i, P i → ∀ room, P (.strut room i.state b.parser.setup.fonts)

namespace Feeds

variable {P : Instruction α → Prop}

theorem unshift (h : Feeds P b) (hline : ∀ i ∈ line.instructions, P i) :
    Feeds P (b.unshift line) where
  parser := h.parser
  queued := List.forall_mem_cons.2 ⟨hline, h.queued⟩
  strut := h.strut

theorem next_greedy (h : Feeds P b) (hq : b.queued = []) (ha : b.algorithm = .greedy)
    (width : α) :
    ∃ r c, b.nextLine width = (.ok r, c) ∧ Feeds P c ∧
      (∀ line ∈ r, ∀ i ∈ line.instructions, P i) ∧ (r = none → Spent c) := by
  obtain ⟨items, hitems, hP⟩ := h.parser
  obtain ⟨r, q, rest, hb, hlist, hrest⟩ := agrees_greedyLine hitems width
  have hnext : b.nextLine width = (.ok r, { b with parser := q }) := by
    unfold nextLine
    rw [hq, ha]
    dsimp only
    rw [hb]
  refine ⟨r, _, hnext, ⟨⟨rest, hrest, ?_⟩, h.queued, ?_⟩, ?_, ?_⟩
  · intro i hi
    exact hP i (greedyLine_subset hlist hi)
  · intro hopt
    exact absurd (ha.symm.trans hopt) (by decide)
  · intro line hline i hi
    rw [Option.mem_def.1 hline] at hlist
    exact hP i (instructions_greedyLine hlist hi)
  · intro hnone
    rw [hnone] at hlist
    rw [(greedyLine_none hlist).1] at hrest
    exact ⟨hq, hrest⟩

theorem next_optimal (h : Feeds P b) (hq : b.queued = []) (ha : b.algorithm = .optimal)
    (width : α) :
    ∃ r c, b.nextLine width = (.ok r, c) ∧ Feeds P c ∧
      (∀ line ∈ r, ∀ i ∈ line.instructions, P i) ∧ (r = none → Spent c) := by
  obtain ⟨items, hitems, hP⟩ := h.parser
  obtain ⟨paragraph, q, rest, htake, hrest, hfirst⟩ := agrees_takeParagraph hitems
  have hsetup : q.setup = b.parser.setup := setup_takeParagraph htake
  have hparser : ∃ items, Yields q items ∧ ∀ i ∈ items, P i := by
    refine ⟨rest, hrest, ?_⟩
    intro i hi
    exact hP i (by rw [hfirst.split]; exact List.mem_append_right paragraph hi)
  have hstrut : ∀ i, P i → ∀ room, P (.strut room i.state q.setup.fonts) := by
    rw [hsetup]
    exact h.strut ha
  have hlines : ∀ line ∈ breakLines width b.optimal b.justify q.setup.fonts paragraph,
      ∀ i ∈ line.instructions, P i := by
    intro line hline i hi
    have hmem (j : Instruction α) (hj : j ∈ paragraph) : P j :=
      hP j (by rw [hfirst.split]; exact List.mem_append_left rest hj)
    rcases instructions_breakLines hline hi with hi | ⟨j, hj, room, rfl⟩
    · exact hmem i hi
    · exact hstrut j (hmem j hj) room
  cases hl : breakLines width b.optimal b.justify q.setup.fonts paragraph with
  | nil =>
    have hnext : b.nextLine width = (.ok none, { b with parser := q }) := by
      unfold nextLine
      rw [hq, ha]
      dsimp only
      rw [htake]
      dsimp only
      rw [hl]
    -- a forced break makes a line, so a paragraph without lines is the last one
    have hend : rest = [] := by
      rcases hfirst.ends with hend | ⟨i, hi, hforced⟩
      · exact hend
      · rw [breakLines_eq_nil hl i hi] at hforced
        cases hforced
    refine ⟨none, _, hnext, ⟨hparser, h.queued, fun _ => hstrut⟩, by simp, ?_⟩
    intro _
    rw [hend] at hrest
    exact ⟨hq, hrest⟩
  | cons line queued =>
    have hnext : b.nextLine width = (.ok (some line), { b with parser := q, queued }) := by
      unfold nextLine
      rw [hq, ha]
      dsimp only
      rw [htake]
      dsimp only
      rw [hl]
    rw [hl] at hlines
    obtain ⟨hline, hqueued⟩ := List.forall_mem_cons.1 hlines
    refine ⟨some line, _, hnext, ⟨hparser, hqueued, fun _ => hstrut⟩, ?_, by simp⟩
    intro other hother
    cases hother
    exact hline

/-- Asking for a line does not fail. -/
theorem next (h : Feeds P b) (width : α) :
    ∃ r c, b.nextLine width = (.ok r, c) ∧ Feeds P c ∧
      (∀ line ∈ r, ∀ i ∈ line.instructions, P i) ∧ (r = none → Spent c) := by
  cases hq : b.queued with
  | cons line queued =>
    have hall := h.queued
    rw [hq] at hall
    obtain ⟨hline, hqueued⟩ := List.forall_mem_cons.1 hall
    refine ⟨some line, _, nextLine_of_queued hq width, ⟨h.parser, hqueued, h.strut⟩, ?_, by simp⟩
    intro other hother
    cases hother
    exact hline
  | nil =>
    cases ha : b.algorithm with
    | greedy => exact h.next_greedy hq ha width
    | optimal => exact h.next_optimal hq ha width

theorem lines_ok (h : Feeds P b) (width : α) :
    ∃ all, (b.lines width).1 = .ok all ∧ ∀ line ∈ all, ∀ i ∈ line.instructions, P i := by
  revert h
  fun_induction Typesetter.lines b width with
  | case1 b e c hn =>
    intro h
    obtain ⟨r, d, hok, -⟩ := h.next width
    rw [hn] at hok
    cases hok
  | case2 => exact fun _ => ⟨[], rfl, by simp⟩
  | case3 b line c hn _ more d hmore ih =>
    intro h
    obtain ⟨r, d, hok, hc, hline, -⟩ := h.next width
    rw [hn] at hok
    cases hok
    obtain ⟨all, hall, hP⟩ := ih hc
    rw [hmore] at hall
    rw [show more = .ok all from hall]
    exact ⟨line :: all, rfl, List.forall_mem_cons.2 ⟨hline line rfl, hP⟩⟩

end Feeds

/-! ## Asking whether lines are left -/

theorem Spent.nextLine (h : Spent b) (width : α) : ∃ c, b.nextLine width = (.ok none, c) := by
  obtain ⟨q, hend⟩ := h.parser.next_none
  unfold Typesetter.nextLine
  rw [h.queued]
  cases b.algorithm with
  | greedy =>
    dsimp only
    rw [show greedyLine width b.parser = _ from fillLine_of_end width [] 0 none hend]
    exact ⟨_, rfl⟩
  | optimal =>
    dsimp only
    rw [takeParagraph_of_end hend]
    exact ⟨_, rfl⟩

theorem Spent.lines (h : Spent b) (width : α) : (b.lines width).1 = .ok [] := by
  obtain ⟨c, hnone⟩ := h.nextLine width
  rw [lines_of_end hnone]

theorem Spent.done (h : Spent b) : b.done.1 = .ok true := by
  obtain ⟨q, hpeek, -⟩ := Parser.next_of_peek h.parser
  unfold Typesetter.done
  rw [h.queued]
  show b.parser.atEos.1 = _
  unfold Parser.atEos
  rw [hpeek]
  rfl

/-- Of a parser that has no line waiting, only what it hands out next matters. -/
theorem nextLine_setParser {q : Parser α} {items : List (Instruction α)}
    (h : Yields b.parser items) (hnext : Source.next q = Source.next b.parser)
    (hq : b.queued = []) (width : α) :
    ({ b with parser := q } : Typesetter α).nextLine width = b.nextLine width := by
  unfold nextLine
  rw [hq]
  cases b.algorithm with
  | greedy =>
    dsimp only
    rw [greedyLine_congr h hnext]
  | optimal =>
    dsimp only
    rw [takeParagraph_congr h hnext]

theorem Feeds.lines_congr {P : Instruction α → Prop} (h : Feeds P b)
    (hsame : c.nextLine width = b.nextLine width) : c.lines width = b.lines width := by
  obtain ⟨r, d, hnext, -⟩ := h.next width
  cases r with
  | none => rw [lines_of_end hnext, lines_of_end (hsame.trans hnext)]
  | some line => rw [lines_of_next hnext, lines_of_next (hsame.trans hnext)]

/-- Asking whether all lines are handed out changes nothing about them.  The answer may be no
although only white space is left, which makes no line; it is never yes while a line is left. -/
theorem Feeds.asked {P : Instruction α → Prop} (h : Feeds P b) (width : α) :
    ∃ r c, b.done = (.ok r, c) ∧ Feeds P c ∧ c.lines width = b.lines width ∧
      (r = true → Spent c) := by
  cases hq : b.queued with
  | cons line queued =>
    have hdone : b.done = (.ok false, b) := by
      unfold Typesetter.done
      rw [hq]
      rfl
    exact ⟨false, b, hdone, h, rfl, by simp⟩
  | nil =>
    obtain ⟨items, hitems, hP⟩ := h.parser
    obtain ⟨q, hpeek, hnext⟩ := Parser.next_of_peek hitems
    have hq' : Yields q items := by
      cases hitems with
      | nil hn => exact .nil (hnext.trans hn)
      | cons hn hmore => exact .cons (hnext.trans hn) hmore
    have hasked : b.parser.atEos = (.ok items.isEmpty, q) := by
      unfold Parser.atEos
      rw [hpeek]
      cases items <;> rfl
    have hkeep : Feeds P { b with parser := q } := by
      refine ⟨⟨items, hq', hP⟩, h.queued, ?_⟩
      intro ha
      rw [show ({ b with parser := q } : Typesetter α).parser.setup = _ from setup_peek hpeek]
      exact h.strut ha
    have hdone : b.done = (.ok items.isEmpty, { b with parser := q }) := by
      unfold Typesetter.done
      rw [hq, hasked]
      rfl
    refine ⟨items.isEmpty, { b with parser := q }, hdone, hkeep, ?_, ?_⟩
    · exact h.lines_congr (nextLine_setParser hitems hnext hq width)
    · intro hempty
      rw [List.isEmpty_iff.1 hempty] at hq'
      exact ⟨hq, hq'⟩

/-! ## Texts -/

/-- A typesetter that has handed out nothing of a text. -/
def ofText (text : String) (root : Style.StyleState α) (setup : Setup α)
    (algorithm : Algorithm) (optimal : OptimalConfig α) (justify : Bool) : Typesetter α :=
  { parser := .ofText text root setup, algorithm, optimal, justify }

theorem feeds_ofText {text : String} {root : Style.StyleState α} {setup : Setup α}
    {out : List (Handed α)} {q : Parser α}
    (h : (Parser.ofText text root setup).handouts = (.ok out, q)) (algorithm : Algorithm)
    (optimal : OptimalConfig α) (justify : Bool) {P : Instruction α → Prop}
    (hP : ∀ j ∈ out, P j.item) (hstrut : ∀ i, P i → ∀ room, P (.strut room i.state setup.fonts)) :
    (ofText text root setup algorithm optimal justify).Feeds P where
  parser := by
    refine ⟨_, Parser.yields_of_handouts h, ?_⟩
    intro i hi
    obtain ⟨j, hj, rfl⟩ := List.mem_map.1 hi
    exact hP j hj
  queued := by
    intro line hline
    cases hline
  strut := fun _ => hstrut

end Typesetter
end Paragraph
end Galley
