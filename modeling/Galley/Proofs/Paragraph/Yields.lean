import Galley.Proofs.Paragraph.GreedyLine
import Galley.Proofs.Paragraph.Handout
import Galley.Paragraph.Typesetter

/-
A text as the list of its instructions.

Line breaking reads a stream, looks ahead and gives back what it has read too much.  A stream that
comes to its end without a failure is no more than the list of what it hands out: each way of
breaking that is used on streams does the same on that list, and leaves a stream of what it leaves
of the list (`Agrees`).  So results about lists hold of texts.

Two laws of a stream are needed: what is given back comes out again and leaves the stream as it was,
and a stream that has ended has ended for good.
-/

namespace Galley
namespace Paragraph

open Source

class LawfulSource (σ : Type) {α : Type} [Source σ α] : Prop where
  next_giveBack : ∀ (i : Instruction α) (s : σ), next (giveBack i s) = (.ok (some i), s)
  next_of_end : ∀ {s t : σ}, next s = (.ok none, t) → next t = (.ok none, t)

instance {α : Type} : LawfulSource (List (Instruction α)) where
  next_giveBack _ _ := rfl
  next_of_end {s t} h := by
    cases s with
    | nil => cases h; rfl
    | cons i rest => cases h

variable {σ α : Type} [Source σ α]

/-- Reading on hands out exactly these instructions, and then comes to the end. -/
inductive Yields : σ → List (Instruction α) → Prop where
  | nil {s t : σ} (h : next s = (.ok none, t)) : Yields s []
  | cons {s t : σ} {i : Instruction α} {items : List (Instruction α)}
      (h : next s = (.ok (some i), t)) (hmore : Yields t items) : Yields s (i :: items)

namespace Yields

variable {s t : σ} {i : Instruction α} {items : List (Instruction α)}

theorem next_none (h : Yields s []) : ∃ t, next s = (.ok none, t) := by
  cases h with
  | nil h => exact ⟨_, h⟩

section

variable [LawfulSource σ]

theorem of_end (h : next s = (.ok none, t)) : Yields t [] :=
  .nil (LawfulSource.next_of_end h)

theorem giveBack (h : Yields s items) (i : Instruction α) :
    Yields (Source.giveBack i s) (i :: items) :=
  .cons (LawfulSource.next_giveBack i s) h

theorem giveBackAll (h : Yields s items) (more : List (Instruction α)) :
    Yields (Source.giveBackAll more s) (more ++ items) := by
  induction more with
  | nil => exact h
  | cons i more ih => exact ih.giveBack i

end

end Yields

/-- Two results are the same, and the stream that the first leaves is the list that the second
leaves. -/
def Agrees {β : Type} (x : Except Error β × σ) (y : Except Error β × List (Instruction α)) : Prop :=
  ∃ b t rest, x = (.ok b, t) ∧ y = (.ok b, rest) ∧ Yields t rest

variable [Scalar α]

/-! ## Greedy lines -/

theorem closeAfterSpace_of_end (line : List (Instruction α)) {s t : σ}
    (h : next s = (.ok none, t)) :
    closeAfterSpace line s = (.ok (.ofInstructions line true), t) := by
  rw [closeAfterSpace]
  split
  · next h' => rw [h] at h'; cases h'
  · next h' => rw [h] at h'; cases h'; rfl
  · next h' => rw [h] at h'; cases h'

theorem closeAfterSpace_of_next (line : List (Instruction α)) {s t : σ} {i : Instruction α}
    (h : next s = (.ok (some i), t)) :
    closeAfterSpace line s =
      if i.isForcedBreak then (.ok (.ofInstructions (line ++ [i]) true), t)
      else if i.discardable then closeAfterSpace line t
      else if i.isClosing then closeAfterSpace (line ++ [i]) t
      else (.ok (.ofInstructions line false), giveBack i t) := by
  rw [closeAfterSpace]
  split
  · next h' => rw [h] at h'; cases h'
  · next h' => rw [h] at h'; cases h'
  · next h' =>
    rw [h] at h'
    cases h'
    cases hk : i.kind <;> simp [Instruction.isClosing, hk]

theorem fillLine_of_end (width : α) (line : List (Instruction α)) (filled : α) (cut : Option Nat)
    {s t : σ} (h : next s = (.ok none, t)) :
    fillLine width line filled cut s =
      (.ok (if line.isEmpty then none else some (.ofInstructions line true)), t) := by
  rw [fillLine]
  split
  · next h' => rw [h] at h'; cases h'
  · next h' => rw [h] at h'; cases h'; rfl
  · next h' => rw [h] at h'; cases h'

theorem fillLine_of_next (width : α) (line : List (Instruction α)) (filled : α)
    (cut : Option Nat) {s t : σ} {i : Instruction α} (h : next s = (.ok (some i), t)) :
    fillLine width line filled cut s =
      if i.isForcedBreak then (.ok (some (.ofInstructions (line ++ [i]) true)), t)
      else
        match decide (Overflows width filled i), cut with
        | true, some cut =>
          (.ok (some (.ofInstructions (line.take cut) false)),
            giveBackAll (line.drop cut ++ [i]) t)
        | _, _ =>
          if i.discardable && decide (width + Scalar.epsilon < filled + i.width) then
            if filled == 0 then fillLine width line filled cut t
            else ((closeAfterSpace line t).1.map some, (closeAfterSpace line t).2)
          else
            fillLine width (line ++ [i]) (filled + i.width) (cutAfter i (line.length + 1) cut)
              t := by
  have hover : decide (Overflows width filled i) = (decide (0 < i.solidWidth) &&
      decide (width + Scalar.epsilon < filled + i.solidWidth)) := by
    unfold Overflows
    exact Bool.decide_and _ _
  rw [hover, fillLine]
  split
  · next h' => rw [h] at h'; cases h'
  · next h' => rw [h] at h'; cases h'
  · next h' => rw [h] at h'; cases h'; rfl

section

variable [LawfulSource σ] {s : σ} {items : List (Instruction α)}

theorem agrees_closeAfterSpace (h : Yields s items) (line : List (Instruction α)) :
    Agrees (closeAfterSpace line s) (closeAfterSpace line items) := by
  induction h generalizing line with
  | nil hn =>
    rw [closeAfterSpace_of_end line hn, closeAfterSpace_nil]
    exact ⟨_, _, _, rfl, rfl, .of_end hn⟩
  | @cons s t i items hn hmore ih =>
    rw [closeAfterSpace_of_next line hn, closeAfterSpace_cons]
    by_cases hf : i.isForcedBreak = true
    · rw [if_pos hf, if_pos hf]
      exact ⟨_, _, _, rfl, rfl, hmore⟩
    · rw [if_neg hf, if_neg hf]
      by_cases hd : i.discardable = true
      · rw [if_pos hd, if_pos hd]
        exact ih line
      · rw [if_neg hd, if_neg hd]
        by_cases hc : i.isClosing = true
        · rw [if_pos hc, if_pos hc]
          exact ih (line ++ [i])
        · rw [if_neg hc, if_neg hc]
          exact ⟨_, _, _, rfl, rfl, hmore.giveBack i⟩

theorem agrees_fillLine (h : Yields s items) (width : α) (line : List (Instruction α))
    (filled : α) (cut : Option Nat) :
    Agrees (fillLine width line filled cut s) (fillLine width line filled cut items) := by
  -- on what the source yields: both sides take the same instruction, so that every test of the
  -- filler has one answer
  induction h generalizing line filled cut with
  | nil hn =>
    rw [fillLine_of_end width line filled cut hn, fillLine_nil]
    exact ⟨_, _, _, rfl, rfl, .of_end hn⟩
  | @cons s t i items hn hmore ih =>
    have hlist : next (i :: items) = (.ok (some i), items) := rfl
    rw [fillLine_of_next width line filled cut hn, fillLine_of_next width line filled cut hlist]
    by_cases hf : i.isForcedBreak = true
    · rw [if_pos hf, if_pos hf]
      exact ⟨_, _, _, rfl, rfl, hmore⟩
    · rw [if_neg hf, if_neg hf]
      split
      · next c _ =>
        refine ⟨_, _, _, rfl, rfl, ?_⟩
        rw [giveBackAll_list]
        exact hmore.giveBackAll (line.drop c ++ [i])
      · split
        · split
          · exact ih line filled _
          · obtain ⟨closed, u, rest, hs, hitems, hrest⟩ := agrees_closeAfterSpace hmore line
            rw [hs, hitems]
            exact ⟨some closed, u, rest, rfl, rfl, hrest⟩
        · exact ih (line ++ [i]) (filled + i.width) _

theorem agrees_greedyLine (h : Yields s items) (width : α) :
    Agrees (greedyLine width s) (greedyLine width items) :=
  agrees_fillLine h width [] 0 none

end

/-! ## Paragraphs -/

omit [Scalar α] in
theorem takeParagraph_of_end {s t : σ} (h : next s = (.ok none, t)) :
    takeParagraph s = (.ok [], t) := by
  rw [takeParagraph]
  split
  · next h' => rw [h] at h'; cases h'
  · next h' => rw [h] at h'; cases h'; rfl
  · next h' => rw [h] at h'; cases h'

omit [Scalar α] in
theorem takeParagraph_of_next {s t : σ} {i : Instruction α} (h : next s = (.ok (some i), t)) :
    takeParagraph s =
      if i.isForcedBreak then (.ok [i], t)
      else ((takeParagraph t).1.map (i :: ·), (takeParagraph t).2) := by
  rw [takeParagraph]
  split
  · next h' => rw [h] at h'; cases h'
  · next h' => rw [h] at h'; cases h'
  · next h' => rw [h] at h'; cases h'; rfl

/-- The first paragraph of a list: up to and with the first forced break. -/
structure FirstParagraph (items paragraph rest : List (Instruction α)) : Prop where
  split : items = paragraph ++ rest
  /-- Only the last paragraph is without a forced break. -/
  ends : rest = [] ∨ ∃ i ∈ paragraph, i.isForcedBreak = true

omit [Scalar α] in
theorem agrees_takeParagraph [LawfulSource σ] {s : σ} {items : List (Instruction α)}
    (h : Yields s items) :
    ∃ paragraph t rest, takeParagraph s = (.ok paragraph, t) ∧ Yields t rest ∧
      FirstParagraph items paragraph rest := by
  induction h with
  | nil hn =>
    exact ⟨[], _, [], takeParagraph_of_end hn, .of_end hn, rfl, Or.inl rfl⟩
  | @cons s t i items hn hmore ih =>
    rw [takeParagraph_of_next hn]
    by_cases hf : i.isForcedBreak = true
    · rw [if_pos hf]
      exact ⟨[i], t, items, rfl, hmore, rfl, Or.inr ⟨i, List.mem_cons_self, hf⟩⟩
    · rw [if_neg hf]
      obtain ⟨paragraph, u, rest, htake, hrest, hsplit, hends⟩ := ih
      rw [htake]
      refine ⟨i :: paragraph, u, rest, rfl, hrest, by rw [hsplit]; rfl, hends.imp_right ?_⟩
      rintro ⟨j, hj, hjf⟩
      exact ⟨j, List.mem_cons_of_mem i hj, hjf⟩

/-! ## Parsers -/

theorem scanner_of_end {s t : Markup.Scanner} (h : s.next = (.ok none, t)) : t = s := by
  have hnot (x : Except Error Markup.Token × Markup.Scanner) :
      (x.1.map some, x.2) ≠ (.ok none, t) := fun hx => map_some_ne x.1 (congrArg Prod.fst hx)
  unfold Markup.Scanner.next at h
  split at h
  · cases h
  · split at h
    · cases h
      rfl
    · split at h
      · exact absurd h (hnot _)
      · split at h
        · exact absurd h (hnot _)
        · cases h

namespace Parser

theorem parseNext_of_spent {p : Parser α} (hr : p.runs = []) (ho : p.openTags = [])
    (hs : p.scanner.next = (.ok none, p.scanner)) : p.parseNext = (.ok none, p) := by
  have hend : p.atEnd = .ok none := by
    unfold atEnd
    rw [ho]
  rw [parseNext]
  split
  · next h => rw [hr] at h; cases h
  · split
    · next h => rw [hs] at h; cases h
    · next h =>
      rw [hs] at h
      cases h
      rw [hend]
    · next h => rw [hs] at h; cases h
    · next h => rw [hs] at h; cases h
    · next h => rw [hs] at h; cases h

/-- The end of the text is found without moving. -/
theorem parseNext_of_end {p q : Parser α} (h : p.parseNext = (.ok none, q)) :
    q.parseNext = (.ok none, q) := by
  revert h
  fun_induction parseNext p with
  | case1 p run runs hr _ _ _ ih => exact ih
  | case2 => simp
  | case3 => simp
  | case4 p hr scanner hs =>
    intro h
    unfold atEnd at h
    split at h
    · next ho =>
      cases h
      obtain rfl := scanner_of_end hs
      exact parseNext_of_spent hr ho hs
    · cases h
  | case5 p hr runs scanner hs _ ih => exact ih
  | case6 p hr tag options scanner hs j r hq =>
    intro h
    cases j <;> cases h
  | case7 p hr tag scanner hs r hc _ ih => exact ih
  | case8 => simp
  | case9 => simp

theorem next_of_end {p q : Parser α} (h : p.next = (.ok none, q)) : q.next = (.ok none, q) := by
  obtain ⟨-, hstanding, hpushed, -⟩ := standing_of_next_none h
  have hq : q.pushed = [] := (congrArg Standing.pushed hstanding).trans hpushed
  unfold next at h
  split at h
  · cases h
  · split at h
    · cases h
    · next r hne hr =>
      cases h
      unfold next
      rw [hq, parseNext_of_end hr]

instance : LawfulSource (Parser α) where
  next_giveBack _ _ := rfl
  next_of_end h := next_of_end h

/-- Peeking leaves a parser that goes on as before. -/
theorem next_of_peek {p : Parser α} {items : List (Instruction α)} (h : Yields p items) :
    ∃ q, p.peek = (.ok items.head?, q) ∧ Source.next q = Source.next p := by
  unfold peek
  cases hp : p.pushed with
  | cons i pushed =>
    have hnext : Source.next p = (.ok (some i), { p with pushed }) := by
      show p.next = _
      unfold next
      rw [hp]
    cases h with
    | nil h => rw [hnext] at h; cases h
    | cons h _ =>
      rw [hnext] at h
      cases h
      exact ⟨p, rfl, rfl⟩
  | nil =>
    cases h with
    | @nil _ q h =>
      have hn : p.next = (.ok none, q) := h
      rw [hn]
      exact ⟨q, rfl, (LawfulSource.next_of_end h).trans h.symm⟩
    | @cons _ q i _ h _ =>
      have hn : p.next = (.ok (some i), q) := h
      rw [hn]
      exact ⟨q.push i, rfl, (LawfulSource.next_giveBack i q).trans h.symm⟩

theorem yields_of_handouts {p r : Parser α} {out : List (Handed α)}
    (h : p.handouts = (.ok out, r)) : Yields p (out.map Handed.item) := by
  revert h
  fun_induction handouts p generalizing out with
  | case1 => simp
  | case2 p q hn =>
    intro h
    cases h
    exact .nil hn
  | case3 p i q hn _ more s hmore ih =>
    intro h
    cases more with
    | error e => cases h
    | ok more =>
      cases h
      exact .cons hn (ih hmore)

end Parser

end Paragraph
end Galley
