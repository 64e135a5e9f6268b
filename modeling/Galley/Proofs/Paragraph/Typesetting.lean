import Galley.Proofs.Paragraph.Handout
import Galley.Paragraph.Typesetter

/-
The lines of a text that is broken paragraph by paragraph.

The typesetter takes a paragraph from its parser whenever it has no finished line left, breaks it,
and hands out the lines one at a time.  So the lines of the text are those of its paragraphs, one
after the other, each broken with the same settings (`lines_of_optimal`).
-/

namespace Galley
namespace Paragraph

variable {α : Type} [Scalar α]

/-- `TakesParagraphs p paragraphs`: these are the first paragraphs that `p` hands out. -/
inductive TakesParagraphs : Parser α → List (List (Instruction α)) → Prop where
  | nil (p : Parser α) : TakesParagraphs p []
  | cons {p q : Parser α} {items : List (Instruction α)}
      {paragraphs : List (List (Instruction α))} (h : takeParagraph p = (.ok items, q))
      (hmore : TakesParagraphs q paragraphs) : TakesParagraphs p (items :: paragraphs)

theorem setup_takeParagraph {p q : Parser α} {items : List (Instruction α)}
    (h : takeParagraph p = (.ok items, q)) : q.setup = p.setup := by
  revert h
  fun_induction takeParagraph p generalizing items with
  | case1 => simp
  | case2 p q hn =>
    intro h
    cases h
    exact (Parser.standing_of_next_none hn).1
  | case3 p i q hn _ _ =>
    intro h
    cases h
    exact (Parser.handout_of_next hn).1
  | case4 p i q hn _ _ more r hr ih =>
    intro h
    cases more with
    | error e => cases h
    | ok more =>
      cases h
      rw [ih hr]
      exact (Parser.handout_of_next hn).1

namespace Typesetter

/-- What a typesetter that breaks optimally makes of a paragraph. -/
def breakParagraph (b : Typesetter α) (width : α) (items : List (Instruction α)) :
    List (Line α) :=
  breakLines width b.optimal b.justify b.parser.setup.fonts items

/-- The two places that a line comes from. -/
theorem nextLine_some {b c : Typesetter α} {width : α} {line : Line α}
    (ha : b.algorithm = .optimal) (h : b.nextLine width = (.ok (some line), c)) :
    (∃ queued, b.queued = line :: queued ∧ c = { b with queued }) ∨
      b.queued = [] ∧ ∃ items parser queued, takeParagraph b.parser = (.ok items, parser) ∧
        b.breakParagraph width items = line :: queued ∧ c = { b with parser, queued } := by
  unfold nextLine at h
  split at h
  · next first queued hq =>
    cases h
    exact Or.inl ⟨queued, hq, rfl⟩
  · next hq =>
    rw [ha] at h
    dsimp only at h
    split at h
    · cases h
    · next items parser ht =>
      split at h
      · cases h
      · next first queued hl =>
        cases h
        rw [setup_takeParagraph ht] at hl
        exact Or.inr ⟨hq, items, parser, queued, ht, hl, by rw [ha]⟩

theorem nextLine_none {b c : Typesetter α} {width : α} (ha : b.algorithm = .optimal)
    (h : b.nextLine width = (.ok none, c)) :
    b.queued = [] ∧ ∃ items parser, takeParagraph b.parser = (.ok items, parser) ∧
      b.breakParagraph width items = [] := by
  unfold nextLine at h
  split at h
  · cases h
  · next hq =>
    rw [ha] at h
    dsimp only at h
    split at h
    · cases h
    · next items parser ht =>
      split at h
      · next hl =>
        rw [setup_takeParagraph ht] at hl
        exact ⟨hq, items, parser, ht, hl⟩
      · cases h

/-- All lines are those that wait and those of the paragraphs still to come. -/
theorem lines_of_optimal {b c : Typesetter α} {width : α} {lines : List (Line α)}
    (ha : b.algorithm = .optimal) (h : b.lines width = (.ok lines, c)) :
    ∃ paragraphs, TakesParagraphs b.parser paragraphs ∧
      lines = b.queued ++ paragraphs.flatMap (b.breakParagraph width) := by
  revert ha h
  fun_induction Typesetter.lines b width generalizing lines with
  | case1 => simp
  | case2 b c hn =>
    intro ha h
    cases h
    obtain ⟨hq, items, parser, ht, hl⟩ := nextLine_none ha hn
    refine ⟨[items], .cons ht (.nil parser), ?_⟩
    rw [hq, List.flatMap_singleton, hl]
    rfl
  | case3 b line d hn _ more e hmore ih =>
    intro ha h
    cases more with
    | error e => cases h
    | ok more =>
      cases h
      rcases nextLine_some ha hn with ⟨queued, hq, rfl⟩ | ⟨hq, items, parser, queued, ht, hl, rfl⟩
      · obtain ⟨paragraphs, htakes, hlines⟩ := ih ha hmore
        refine ⟨paragraphs, htakes, ?_⟩
        rw [hlines, hq]
        rfl
      · obtain ⟨paragraphs, htakes, hlines⟩ := ih ha hmore
        have hsame : ({ b with parser, queued } : Typesetter α).breakParagraph width =
            b.breakParagraph width := by
          funext more
          unfold breakParagraph
          rw [show parser.setup = b.parser.setup from setup_takeParagraph ht]
        refine ⟨items :: paragraphs, .cons ht htakes, ?_⟩
        rw [hlines, hsame, hq, List.flatMap_cons, hl]
        rfl

/-! ## Lines, one after the other -/

theorem lines_of_end {b c : Typesetter α} {width : α} (h : b.nextLine width = (.ok none, c)) :
    b.lines width = (.ok [], c) := by
  rw [Typesetter.lines]
  split
  · next h' => rw [h] at h'; cases h'
  · next h' => rw [h] at h'; cases h'; rfl
  · next h' => rw [h] at h'; cases h'

theorem lines_of_next {b c : Typesetter α} {width : α} {line : Line α}
    (h : b.nextLine width = (.ok (some line), c)) :
    b.lines width = ((c.lines width).1.map (line :: ·), (c.lines width).2) := by
  rw [Typesetter.lines]
  split
  · next h' => rw [h] at h'; cases h'
  · next h' => rw [h] at h'; cases h'
  · next h' => rw [h] at h'; cases h'; rfl

/-! ## Lines counted out -/

/-- The lines that are left, if so many steps come to their end. -/
def linesWithin (width : α) : Nat → Typesetter α → Option (List (Line α))
  | 0, _ => none
  | n + 1, b =>
    match b.nextLine width with
    | (.error _, _) => none
    | (.ok none, _) => some []
    | (.ok (some line), c) => (linesWithin width n c).map (line :: ·)

theorem lines_of_within {width : α} {n : Nat} {b : Typesetter α} {lines : List (Line α)}
    (h : linesWithin width n b = some lines) : (b.lines width).1 = .ok lines := by
  induction n generalizing b lines with
  | zero => cases h
  | succ n ih =>
    rw [linesWithin] at h
    split at h
    · cases h
    · next c hn =>
      cases h
      rw [lines_of_end hn]
    · next line c hn =>
      obtain ⟨more, hmore, rfl⟩ := Option.map_eq_some_iff.1 h
      rw [lines_of_next hn, ih hmore]
      rfl

end Typesetter
end Paragraph
end Galley
