import Galley.Proofs.Paragraph.Feeds
import Galley.Proofs.Paragraph.TrailingSpace

/-
The lines of a text from the list of its instructions.

`linesOf` breaks a list as a typesetter breaks the text that yields it (`lines_of_yields`): line by
line, or paragraph by paragraph.  One more run of white space at the end of the list makes a blank
line behind a forced break, and nothing else (`linesOf_concat_space`).
-/

namespace Galley
namespace Paragraph

open Source

variable {α : Type}

/-- The paragraphs of a list.  Each but the last ends with a forced break. -/
def paragraphsOf : List (Instruction α) → List (List (Instruction α))
  | [] => []
  | i :: items =>
    if i.isForcedBreak then [i] :: paragraphsOf items
    else match paragraphsOf items with
      | [] => [[i]]
      | paragraph :: more => (i :: paragraph) :: more

theorem paragraphsOf_ne_nil {items : List (Instruction α)} (h : items ≠ []) :
    paragraphsOf items ≠ [] := by
  cases items with
  | nil => exact absurd rfl h
  | cons i items =>
    rw [paragraphsOf]
    split
    · simp
    · split <;> simp

/-- More at the end of a list continues its last paragraph, or starts one behind a forced break. -/
theorem paragraphsOf_concat {items : List (Instruction α)} (hne : items ≠ []) {sp : Instruction α}
    (hsp : sp.isForcedBreak = false) :
    (endsForced items = true ∧ paragraphsOf (items ++ [sp]) = paragraphsOf items ++ [[sp]]) ∨
      endsForced items = false ∧ ∃ init last, last ≠ [] ∧ last.getLast? = items.getLast? ∧
        paragraphsOf items = init ++ [last] ∧
        paragraphsOf (items ++ [sp]) = init ++ [last ++ [sp]] := by
  have hsingle : paragraphsOf [sp] = [[sp]] := by simp [paragraphsOf, hsp]
  induction items with
  | nil => exact absurd rfl hne
  | cons i items ih =>
    cases items with
    | nil =>
      cases hi : i.isForcedBreak with
      | true =>
        refine Or.inl ⟨by simpa [endsForced] using hi, ?_⟩
        rw [List.cons_append, List.nil_append, paragraphsOf, hsingle, paragraphsOf, if_pos hi,
          if_pos hi]
        rfl
      | false =>
        refine Or.inr ⟨by simpa [endsForced] using hi, [], [i], by simp, rfl, ?_, ?_⟩
        · simp [paragraphsOf, hi]
        · rw [List.cons_append, List.nil_append, paragraphsOf, hsingle, if_neg (by simp [hi])]
          rfl
    | cons j items =>
      have hends : endsForced (i :: j :: items) = endsForced (j :: items) := by simp [endsForced]
      have hlast : (i :: j :: items).getLast? = (j :: items).getLast? := List.getLast?_cons_cons
      rw [hends, hlast, List.cons_append, paragraphsOf, paragraphsOf]
      rcases ih (by simp) with ⟨hforced, heq⟩ | ⟨hforced, init, last, hlastne, hsame, hold, hnew⟩
      · refine Or.inl ⟨hforced, ?_⟩
        rw [heq]
        split
        · rfl
        · cases hp : paragraphsOf (j :: items) with
          | nil => exact absurd hp (paragraphsOf_ne_nil (by simp))
          | cons paragraph more => rfl
      · refine Or.inr ⟨hforced, ?_⟩
        rw [hold, hnew]
        cases init with
        | nil =>
          split
          · exact ⟨[[i]], last, hlastne, hsame, rfl, rfl⟩
          · refine ⟨[], i :: last, by simp, ?_, rfl, rfl⟩
            rw [← hsame]
            obtain ⟨k, last, rfl⟩ := List.exists_cons_of_ne_nil hlastne
            exact List.getLast?_cons_cons
        | cons paragraph init =>
          split
          · exact ⟨[i] :: paragraph :: init, last, hlastne, hsame, rfl, rfl⟩
          · exact ⟨(i :: paragraph) :: init, last, hlastne, hsame, rfl, rfl⟩

section

variable {σ : Type} [Source σ α] [LawfulSource σ]

/-- A stream hands out the paragraphs of the list that it yields. -/
theorem takeParagraph_of_yields {s : σ} {items : List (Instruction α)} (h : Yields s items)
    (hne : items ≠ []) : ∃ paragraph t rest, takeParagraph s = (.ok paragraph, t) ∧
      Yields t rest ∧ FirstParagraph items paragraph rest ∧ paragraph ≠ [] ∧
      paragraphsOf items = paragraph :: paragraphsOf rest := by
  induction h with
  | nil => exact absurd rfl hne
  | @cons s t i items hn hmore ih =>
    rw [takeParagraph_of_next hn]
    by_cases hi : i.isForcedBreak = true
    · rw [if_pos hi]
      refine ⟨[i], t, items, rfl, hmore, ⟨rfl, Or.inr ⟨i, List.mem_cons_self, hi⟩⟩, by simp, ?_⟩
      rw [paragraphsOf, if_pos hi]
    · rw [if_neg hi]
      cases items with
      | nil =>
        obtain ⟨u, hu⟩ := hmore.next_none
        refine ⟨[i], u, [], ?_, .of_end hu, ⟨rfl, Or.inl rfl⟩, by simp, ?_⟩
        · rw [takeParagraph_of_end hu]
          rfl
        · simp [paragraphsOf, hi]
      | cons j items =>
        obtain ⟨paragraph, u, rest, htake, hrest, hfirst, -, hsplit⟩ := ih (by simp)
        refine ⟨i :: paragraph, u, rest, ?_, hrest, ⟨?_, hfirst.ends.imp_right ?_⟩, by simp, ?_⟩
        · rw [htake]
          rfl
        · rw [hfirst.split]
          rfl
        · rintro ⟨k, hk, hforced⟩
          exact ⟨k, List.mem_cons_of_mem i hk, hforced⟩
        · rw [paragraphsOf, if_neg hi, hsplit]

end

variable [Scalar α]

/-- The lines that a typesetter makes of a list. -/
def Typesetter.linesOf (b : Typesetter α) (width : α) (items : List (Instruction α)) :
    List (Line α) :=
  match b.algorithm with
  | .greedy => greedyLines width items
  | .optimal => (paragraphsOf items).flatMap (b.breakParagraph width)

namespace Typesetter

variable {b : Typesetter α}

theorem lines_of_yields_greedy (ha : b.algorithm = .greedy) (hq : b.queued = [])
    {items : List (Instruction α)} (h : Yields b.parser items) (width : α) :
    (b.lines width).1 = .ok (greedyLines width items) := by
  induction hlength : items.length using Nat.strong_induction_on generalizing b items with
  | _ n ih =>
    obtain ⟨made, q, rest, hparser, hitems, hrest⟩ := agrees_greedyLine h width
    have hnext : b.nextLine width = (.ok made, { b with parser := q }) := by
      unfold nextLine
      rw [hq, ha]
      dsimp only
      rw [hparser]
    cases made with
    | none => rw [lines_of_end hnext, greedyLines_of_none hitems]
    | some l =>
      have hlt : rest.length < items.length := remaining_greedyLine_lt hitems
      rw [lines_of_next hnext, greedyLines_of_some hitems,
        ih rest.length (hlength ▸ hlt) (b := { b with parser := q }) ha hq hrest rfl]
      rfl

/-- Lines that wait are handed out first. -/
theorem lines_queued (b : Typesetter α) (width : α) (queued : List (Line α)) :
    ({ b with queued } : Typesetter α).lines width =
      ((({ b with queued := [] } : Typesetter α).lines width).1.map (queued ++ ·),
        (({ b with queued := [] } : Typesetter α).lines width).2) := by
  induction queued with
  | nil => cases hlines : ({ b with queued := [] } : Typesetter α).lines width with
    | mk r c => cases r <;> rfl
  | cons line queued ih =>
    have hnext : ({ b with queued := line :: queued } : Typesetter α).nextLine width =
        (.ok (some line), { b with queued }) := nextLine_of_queued rfl width
    rw [lines_of_next hnext, ih]
    cases hlines : (({ b with queued := [] } : Typesetter α).lines width).1 <;> rfl

theorem lines_of_yields_optimal (ha : b.algorithm = .optimal) (hq : b.queued = [])
    {items : List (Instruction α)} (h : Yields b.parser items) (width : α) :
    (b.lines width).1 = .ok ((paragraphsOf items).flatMap (b.breakParagraph width)) := by
  induction hlength : items.length using Nat.strong_induction_on generalizing b items with
  | _ n ih =>
    by_cases hne : items = []
    · subst hne
      exact Spent.lines ⟨hq, h⟩ width
    · obtain ⟨paragraph, q, rest, htake, hrest, hfirst, hpar, hsplit⟩ :=
        takeParagraph_of_yields h hne
      have hsetup : q.setup = b.parser.setup := setup_takeParagraph htake
      have hmade : breakLines width b.optimal b.justify q.setup.fonts paragraph =
          b.breakParagraph width paragraph := by rw [hsetup]; rfl
      rw [hsplit, List.flatMap_cons]
      cases hlines : b.breakParagraph width paragraph with
      | nil =>
        have hnext : b.nextLine width = (.ok none, { b with parser := q }) := by
          unfold nextLine
          rw [hq, ha]
          dsimp only
          rw [htake]
          dsimp only
          rw [hmade, hlines]
        -- a paragraph without lines has no forced break, so it is the last one
        have hlast : rest = [] := by
          rcases hfirst.ends with hlast | ⟨i, hi, hforced⟩
          · exact hlast
          · rw [breakLines_eq_nil hlines i hi] at hforced
            cases hforced
        rw [lines_of_end hnext, hlast]
        rfl
      | cons line queued =>
        have hnext : b.nextLine width = (.ok (some line), { b with parser := q, queued }) := by
          unfold nextLine
          rw [hq, ha]
          dsimp only
          rw [htake]
          dsimp only
          rw [hmade, hlines]
        have hlt : rest.length < items.length := by
          have hpos := List.length_pos_iff.2 hpar
          rw [hfirst.split, List.length_append]
          omega
        have hmore := ih rest.length (hlength ▸ hlt) (b := { b with parser := q, queued := [] })
          ha rfl hrest rfl
        have hsame : ({ b with parser := q, queued := [] } : Typesetter α).breakParagraph width =
            b.breakParagraph width := by
          funext more
          unfold breakParagraph
          rw [hsetup]
        rw [lines_of_next hnext,
          lines_queued ({ b with parser := q } : Typesetter α) width queued, hmore, hsame]
        rfl

/-- The lines of a text are those of the list that it yields. -/
theorem lines_of_yields (hq : b.queued = []) {items : List (Instruction α)}
    (h : Yields b.parser items) (width : α) :
    (b.lines width).1 = .ok (b.linesOf width items) := by
  unfold linesOf
  cases ha : b.algorithm with
  | greedy => exact lines_of_yields_greedy ha hq h width
  | optimal => exact lines_of_yields_optimal ha hq h width

/-- One more run of white space adds a blank line behind a forced break, and nothing else. -/
theorem linesOf_concat_space [Scalar.KeepsSign α] {width : α} {sp : Instruction α}
    (h : FitsAsSpace width sp) (b : Typesetter α) {items : List (Instruction α)} (hne : items ≠ [])
    (hlast : LastFits width items) :
    b.linesOf width (items ++ [sp]) =
      b.linesOf width items ++ if endsForced items then [.blank] else [] := by
  unfold linesOf
  cases b.algorithm with
  | greedy => exact greedyLines_concat_space h hne hlast
  | optimal =>
    dsimp only
    rcases paragraphsOf_concat hne h.notForced with
      ⟨hforced, hnew⟩ | ⟨hforced, init, last, hlastne, hsame, hold, hnew⟩
    · rw [hnew, hforced, List.flatMap_append, List.flatMap_singleton, breakParagraph,
        breakLines_space h]
      rfl
    · have hends : endsForced last = false := (endsForced_congr hsame).trans hforced
      rw [hold, hnew, hforced, List.flatMap_append, List.flatMap_append, List.flatMap_singleton,
        List.flatMap_singleton, breakParagraph, breakParagraph,
        breakLines_concat_space h b.optimal b.justify b.parser.setup.fonts hlastne hends
          (hlast.congr hsame)]
      exact (List.append_nil _).symm

end Typesetter
end Paragraph
end Galley
