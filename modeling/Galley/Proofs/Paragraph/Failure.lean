import Galley.Proofs.Paragraph.Feeds

/-
Texts that cannot be read to their end.

A stream that fails after some instructions fails for whoever reads it on: a line or a paragraph may
still come out of what stands before the failure, and what is left then fails in the same way.  A
typesetter looks at every instruction that is not yet broken into lines, and has no errors of its
own, so it fails exactly if its text cannot be read to the end, and with the same error
(`Typesetter.lines_error_iff`).
-/

namespace Galley
namespace Paragraph

open Source

variable {σ α : Type} [Source σ α]

/-- Reading on comes to this error, and to none before it. -/
inductive FailsWith (e : Error) : σ → Prop where
  | now {s t : σ} (h : next s = (.error e, t)) : FailsWith e s
  | later {s t : σ} {i : Instruction α} (h : next s = (.ok (some i), t)) (hmore : FailsWith e t) :
      FailsWith e s

/-- The error, or a result that leaves a stream which fails with it. -/
def FailsAfter {β : Type} (e : Error) (P : β → Prop) (x : Except Error β × σ) : Prop :=
  x.1 = .error e ∨ ∃ b, x.1 = .ok b ∧ P b ∧ FailsWith e x.2

section

variable [LawfulSource σ] {s : σ} {e : Error}

theorem FailsWith.giveBack (h : FailsWith e s) (i : Instruction α) :
    FailsWith e (Source.giveBack i s) :=
  .later (LawfulSource.next_giveBack i s) h

theorem FailsWith.giveBackAll (h : FailsWith e s) (items : List (Instruction α)) :
    FailsWith e (Source.giveBackAll items s) := by
  induction items with
  | nil => exact h
  | cons i items ih => exact ih.giveBack i

end

/-! ## Lines and paragraphs -/

theorem takeParagraph_of_error {s t : σ} {e : Error} (h : next s = (.error e, t)) :
    takeParagraph s = (.error e, t) := by
  rw [takeParagraph]
  split
  · next h' => rw [h] at h'; cases h'; rfl
  · next h' => rw [h] at h'; cases h'
  · next h' => rw [h] at h'; cases h'

/-- The paragraph before a failure ends by force. -/
theorem fails_takeParagraph {s : σ} {e : Error} (h : FailsWith e s) :
    FailsAfter e (fun items => ∃ i ∈ items, i.isForcedBreak = true) (takeParagraph s) := by
  induction h with
  | now h => exact Or.inl (by rw [takeParagraph_of_error h])
  | @later s t i h hmore ih =>
    rw [takeParagraph_of_next h]
    by_cases hf : i.isForcedBreak = true
    · rw [if_pos hf]
      exact Or.inr ⟨[i], rfl, ⟨i, List.mem_cons_self, hf⟩, hmore⟩
    · rw [if_neg hf]
      rcases ih with he | ⟨items, hitems, ⟨j, hj, hforced⟩, hrest⟩
      · exact Or.inl (by rw [he]; rfl)
      · exact Or.inr ⟨i :: items, by rw [hitems]; rfl,
          ⟨j, List.mem_cons_of_mem i hj, hforced⟩, hrest⟩

variable [Scalar α]

theorem closeAfterSpace_of_error (line : List (Instruction α)) {s t : σ} {e : Error}
    (h : next s = (.error e, t)) : closeAfterSpace line s = (.error e, t) := by
  rw [closeAfterSpace]
  split
  · next h' => rw [h] at h'; cases h'; rfl
  · next h' => rw [h] at h'; cases h'
  · next h' => rw [h] at h'; cases h'

theorem fillLine_of_error (width : α) (line : List (Instruction α)) (filled : α)
    (cut : Option Nat) {s t : σ} {e : Error} (h : next s = (.error e, t)) :
    fillLine width line filled cut s = (.error e, t) := by
  rw [fillLine]
  split
  · next h' => rw [h] at h'; cases h'; rfl
  · next h' => rw [h] at h'; cases h'
  · next h' => rw [h] at h'; cases h'

section

variable [LawfulSource σ] {s : σ} {e : Error}

theorem fails_closeAfterSpace (h : FailsWith e s) (line : List (Instruction α)) :
    FailsAfter e (fun _ => True) (closeAfterSpace line s) := by
  induction h generalizing line with
  | now h => exact Or.inl (by rw [closeAfterSpace_of_error line h])
  | @later s t i h hmore ih =>
    rw [closeAfterSpace_of_next line h]
    by_cases hf : i.isForcedBreak = true
    · rw [if_pos hf]
      exact Or.inr ⟨_, rfl, trivial, hmore⟩
    · rw [if_neg hf]
      by_cases hd : i.discardable = true
      · rw [if_pos hd]
        exact ih line
      · rw [if_neg hd]
        by_cases hc : i.isClosing = true
        · rw [if_pos hc]
          exact ih (line ++ [i])
        · rw [if_neg hc]
          exact Or.inr ⟨_, rfl, trivial, hmore.giveBack i⟩

/-- A line that stands before the failure is still made. -/
theorem fails_fillLine (h : FailsWith e s) (width : α) (line : List (Instruction α)) (filled : α)
    (cut : Option Nat) :
    FailsAfter e (fun made => made.isSome = true) (fillLine width line filled cut s) := by
  induction h generalizing line filled cut with
  | now h => exact Or.inl (by rw [fillLine_of_error width line filled cut h])
  | @later s t i h hmore ih =>
    rw [fillLine_of_next width line filled cut h]
    by_cases hf : i.isForcedBreak = true
    · rw [if_pos hf]
      exact Or.inr ⟨_, rfl, rfl, hmore⟩
    · rw [if_neg hf]
      split
      · exact Or.inr ⟨_, rfl, rfl, hmore.giveBackAll _⟩
      · split
        · split
          · exact ih line filled _
          · rcases fails_closeAfterSpace hmore line with he | ⟨closed, hclosed, -, hrest⟩
            · exact Or.inl (by rw [he]; rfl)
            · exact Or.inr ⟨some closed, by rw [hclosed]; rfl, rfl, hrest⟩
        · exact ih (line ++ [i]) (filled + i.width) _

theorem fails_greedyLine (h : FailsWith e s) (width : α) :
    FailsAfter e (fun made => made.isSome = true) (greedyLine width s) :=
  fails_fillLine h width [] 0 none

end

/-! ## Whole texts -/

namespace Parser

omit [Source σ α] in
theorem fails_of_handouts {p r : Parser α} {e : Error} (h : p.handouts = (.error e, r)) :
    FailsWith e p := by
  revert h
  fun_induction handouts p with
  | case1 p e' q hn =>
    intro h
    cases h
    exact .now hn
  | case2 => simp
  | case3 p i q hn _ more s hmore ih =>
    intro h
    cases more with
    | ok more => cases h
    | error e' =>
      cases h
      exact .later hn (ih hmore)

omit [Source σ α] in
/-- Reading on comes to the end or to an error. -/
theorem yields_or_fails (p : Parser α) :
    (∃ items, Yields p items) ∨ ∃ e, FailsWith e p := by
  cases hread : p.handouts with
  | mk r q =>
    cases r with
    | ok out => exact Or.inl ⟨_, yields_of_handouts hread⟩
    | error e => exact Or.inr ⟨e, fails_of_handouts hread⟩

end Parser

namespace Typesetter

variable {b : Typesetter α} {e : Error}

omit [Source σ α] in
theorem fails_nextLine (h : FailsWith e b.parser) (width : α) :
    (b.nextLine width).1 = .error e ∨
      ∃ line c, b.nextLine width = (.ok (some line), c) ∧ FailsWith e c.parser := by
  unfold nextLine
  split
  · next line queued hq => exact Or.inr ⟨line, _, rfl, h⟩
  · cases b.algorithm with
    | greedy =>
      dsimp only
      rcases fails_greedyLine h width with he | ⟨made, hmade, hsome, hrest⟩
      · exact Or.inl he
      · obtain ⟨line, rfl⟩ := Option.isSome_iff_exists.1 hsome
        rw [show greedyLine width b.parser = (.ok (some line), (greedyLine width b.parser).2) from
          Prod.ext hmade rfl]
        exact Or.inr ⟨line, _, rfl, hrest⟩
    | optimal =>
      dsimp only
      rcases fails_takeParagraph h with he | ⟨items, hitems, hforced, hrest⟩
      · rw [show takeParagraph b.parser = (.error e, (takeParagraph b.parser).2) from
          Prod.ext he rfl]
        exact Or.inl rfl
      · rw [show takeParagraph b.parser = (.ok items, (takeParagraph b.parser).2) from
          Prod.ext hitems rfl]
        dsimp only
        split
        · next hnone =>
          obtain ⟨i, hi, hbreak⟩ := hforced
          rw [breakLines_eq_nil hnone i hi] at hbreak
          cases hbreak
        · next line queued hl => exact Or.inr ⟨line, _, rfl, hrest⟩

omit [Source σ α] in
theorem fails_lines (h : FailsWith e b.parser) (width : α) : (b.lines width).1 = .error e := by
  revert h
  fun_induction Typesetter.lines b width with
  | case1 b e' c hn =>
    intro h
    rcases fails_nextLine h width with he | ⟨line, d, hd, -⟩
    · rw [hn] at he
      rw [Except.error.inj he]
    · rw [hn] at hd
      cases hd
  | case2 b c hn =>
    intro h
    rcases fails_nextLine h width with he | ⟨line, d, hd, -⟩
    · rw [hn] at he
      cases he
    · rw [hn] at hd
      cases hd
  | case3 b line c hn _ more d hmore ih =>
    intro h
    rcases fails_nextLine h width with he | ⟨line, d, hd, hc⟩
    · rw [hn] at he
      cases he
    · rw [hn] at hd
      cases hd
      have he := ih hc
      rw [hmore] at he
      rw [show more = .error e from he]
      rfl

/-- The lines of a text fail exactly as reading it fails, whatever the column and the way of
breaking. -/
theorem lines_error_iff (b : Typesetter α) (width : α) (e : Error) :
    (b.lines width).1 = .error e ↔ FailsWith e b.parser := by
  refine ⟨?_, fun h => fails_lines h width⟩
  intro hlines
  rcases b.parser.yields_or_fails with ⟨items, hitems⟩ | ⟨e', hfails⟩
  · have hfeeds : b.Feeds (fun _ => True) :=
      ⟨⟨items, hitems, fun _ _ => trivial⟩, fun _ _ _ _ => trivial, fun _ _ _ _ => trivial⟩
    obtain ⟨all, hall, -⟩ := hfeeds.lines_ok width
    rw [hall] at hlines
    cases hlines
  · have hsame := fails_lines hfails width
    rw [hlines] at hsame
    cases hsame
    exact hfails

/-- A text is laid out exactly if it is read to its end. -/
theorem lines_ok_iff (text : String) (root : Style.StyleState α) (setup : Setup α)
    (algorithm : Algorithm) (optimal : OptimalConfig α) (justify : Bool) (width : α) :
    (∃ all, ((ofText text root setup algorithm optimal justify).lines width).1 = .ok all) ↔
      ∃ out, (Parser.ofText text root setup).handouts.1 = .ok out := by
  constructor
  · rintro ⟨all, hall⟩
    cases hread : (Parser.ofText text root setup).handouts.1 with
    | ok out => exact ⟨out, rfl⟩
    | error e =>
      have hfails : FailsWith e (ofText text root setup algorithm optimal justify).parser :=
        Parser.fails_of_handouts (Prod.ext hread rfl)
      have he := fails_lines hfails width
      rw [hall] at he
      cases he
  · rintro ⟨out, hout⟩
    have hfeeds := feeds_ofText (Prod.ext hout rfl) algorithm optimal justify
      (P := fun _ => True) (fun _ _ => trivial) (fun _ _ _ => trivial)
    obtain ⟨all, hall, -⟩ := hfeeds.lines_ok width
    exact ⟨all, hall⟩

end Typesetter
end Paragraph
end Galley
