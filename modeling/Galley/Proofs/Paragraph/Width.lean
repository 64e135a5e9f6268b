import Galley.Proofs.Paragraph.BreakLines

/-
Lines keep to the width of their column.

In exact arithmetic whatever shows on a line ends within the width, unless the line could not have
ended before it.  So nothing but a single run without a break opportunity makes a line too wide.
Both ways of breaking lines check this while a line grows; what is put onto a line or taken off it
afterwards shows nothing, or fills the line up to the width.
-/

namespace Galley
namespace Paragraph

/-- What shows on the line ends within the width, or no break opportunity comes before it. -/
def KeepsTo (width : Rat) (line : List (Instruction Rat)) : Prop :=
  Everywhere (fun front i _ => i.isVisible = true →
    totalWidth (front ++ [i]) ≤ width + Scalar.epsilon ∨
      ∀ j ∈ front, j.breakOpportunity = false) line

namespace KeepsTo

variable {width : Rat} {line tail : List (Instruction Rat)}

theorem of_append (h : KeepsTo width (line ++ tail)) : KeepsTo width line :=
  (Everywhere.append_iff.1 h).1

theorem concat {i : Instruction Rat} (h : KeepsTo width line)
    (hi : i.isVisible = true → totalWidth (line ++ [i]) ≤ width + Scalar.epsilon ∨
      ∀ j ∈ line, j.breakOpportunity = false) : KeepsTo width (line ++ [i]) :=
  Everywhere.concat_iff.2 ⟨h, hi⟩

theorem append_blank (h : KeepsTo width line) (ht : Blank tail) : KeepsTo width (line ++ tail) := by
  refine Everywhere.append_iff.2 ⟨h, ?_⟩
  intro front i back htail hi
  have hblank : i.isVisible = false := ht i (by rw [htail]; simp)
  rw [hblank] at hi
  cases hi

theorem trim {items : List (Instruction Rat)} (h : KeepsTo width items)
    (hmade : ∀ i ∈ items, i.Made) : KeepsTo width (Line.trim items) := by
  obtain ⟨body, tail, hitems, htrim, htail⟩ := trim_split items
  have hblank : Blank tail := by
    apply blank_of_marker _ htail
    intro i hi
    apply hmade
    rw [hitems]
    exact List.mem_append_right body hi
  rw [hitems] at h
  rw [htrim]
  apply h.of_append.append_blank
  intro i hi
  exact hblank i (List.mem_of_mem_filter hi)

/-- A strut may fill the line up to the width. -/
theorem append_strut {room : Rat} {state : Style.StyleState Rat} {fonts : Font.FontService Rat}
    (h : KeepsTo width line) (hroom : room = width - totalWidth line) :
    KeepsTo width (line ++ [.strut room state fonts]) := by
  apply h.concat
  intro _
  left
  have hstrut : (Instruction.strut room state fonts).width = room := rfl
  have hslack := Scalar.epsilon_pos
  rw [totalWidth_concat, hstrut, hroom]
  linarith

end KeepsTo

/-! ## A greedy line -/

/-- What filling a line keeps to: the line may only be too wide where it cannot be cut. -/
structure FilledTo (width : Rat) (f : Filling Rat) : Prop where
  keeps : KeepsTo width f.line
  filled : f.filled = totalWidth f.line
  uncut : f.cut = none → ∀ j ∈ f.line, j.breakOpportunity = false

theorem FilledTo.step {width : Rat} {f g : Filling Rat} (hs : FillStep width f g)
    (h : FilledTo width f) : FilledTo width g := by
  cases hs with
  | @take line rest filled cut i hf ho hd =>
    have hfilled : filled = totalWidth line := h.filled
    rw [hfilled, overflows_iff] at ho
    refine ⟨h.keeps.concat fun hi => ?_, ?_, fun hcut j hj => ?_⟩
    · by_cases hwide : width + Scalar.epsilon < totalWidth (line ++ [i])
      · exact Or.inr (h.uncut (ho ⟨hi, hwide⟩))
      · exact Or.inl (not_lt.1 hwide)
    · show filled + i.width = totalWidth (line ++ [i])
      rw [totalWidth_concat, hfilled]
    · have hcut : (if i.breakOpportunity then some (line.length + 1) else cut) = none := hcut
      split at hcut
      · cases hcut
      · next hb =>
        rcases List.mem_append.1 hj with hj | hj
        · exact h.uncut hcut j hj
        · rw [List.mem_singleton.1 hj]
          simpa using hb
  | drop => exact ⟨h.keeps, h.filled, h.uncut⟩

theorem FilledTo.run {width : Rat} {f g : Filling Rat}
    (hsteps : Relation.ReflTransGen (FillStep width) f g) (h : FilledTo width f) :
    FilledTo width g :=
  keep_of_fillSteps (fun _ _ hs hf => hf.step hs) hsteps h

theorem filledTo_start (width : Rat) (items : List (Instruction Rat)) :
    FilledTo width (.start items) where
  keeps := Everywhere.nil
  filled := rfl
  uncut := by
    intro _ j hj
    cases hj

theorem greedyLine_keepsTo {width : Rat} {items rest : List (Instruction Rat)} {l : Line Rat}
    (hmade : ∀ i ∈ items, i.Made) (h : greedyLine width items = (.ok (some l), rest)) :
    KeepsTo width l.instructions := by
  obtain ⟨f, hsteps, hend⟩ := FillRun.of_greedyLine h
  have hf := (filledTo_start width items).run hsteps
  have hsub : ∀ i ∈ f.line ++ f.rest, i.Made :=
    fun i hi => hmade i (subset_of_fillSteps hsteps hi)
  have hline : ∀ i ∈ f.line, i.Made := fun i hi => hsub i (List.mem_append_left _ hi)
  have hrest : ∀ i ∈ f.rest, i.Made := fun i hi => hsub i (List.mem_append_right _ hi)
  rcases hend.line_cases hrest with ⟨passed, hpassed, hblank, -, hl⟩ | ⟨c, -, -, hl⟩
  · rw [hl]
    have hsolid : Blank (solidPart passed) :=
      fun i hi => hblank i (List.mem_of_mem_filter hi)
    apply (hf.keeps.append_blank hsolid).trim
    intro i hi
    rcases List.mem_append.1 hi with hi | hi
    · exact hline i hi
    · apply hrest
      rw [hpassed]
      exact List.mem_append_left _ (List.mem_of_mem_filter hi)
  · rw [hl]
    have hcut : KeepsTo width (f.line.take c) := by
      have := hf.keeps
      rw [← List.take_append_drop c f.line] at this
      exact this.of_append
    exact hcut.trim fun i hi => hline i (List.take_subset c f.line hi)

theorem greedyLines_keepTo {width : Rat} {items : List (Instruction Rat)}
    (hmade : ∀ i ∈ items, i.Made) :
    ∀ l ∈ greedyLines width items, KeepsTo width l.instructions := by
  induction hn : items.length using Nat.strong_induction_on generalizing items with
  | _ n ih =>
    intro l hl
    rcases greedyLines_cases width items with ⟨_, _, hlines⟩ | ⟨first, rest, hfirst, hlt, hlines⟩
    · rw [hlines] at hl
      cases hl
    · rw [hlines] at hl
      rcases List.mem_cons.1 hl with rfl | hl
      · exact greedyLine_keepsTo hmade hfirst
      · exact ih rest.length (by omega) (fun i hi => hmade i (greedyLine_subset hfirst hi)) rfl l hl

/-! ## Lines that the search finds -/

/-- What a line goes on past keeps to the width. -/
theorem Scanned.keepsTo {limits : Limits Rat} {items rest : List (Instruction Rat)}
    (h : Scanned limits [] items rest) : KeepsTo limits.width items := by
  refine Everywhere.mono h fun front i _ hp => ?_
  exact (Growth.not_stuck_of_iff limits front i).1 hp.1

theorem keepsTo_of_mem_breaks {limits : Limits Rat} {items : List (Instruction Rat)} {s : Nat}
    {b : Break Rat} (hb : b ∈ breaksFrom limits items s) :
    KeepsTo limits.width ((items.drop s).take (b.next - s)) := by
  obtain ⟨front, i, rest, hitems, hscan, hends, rfl⟩ :=
    (mem_breaks_iff limits s [] (items.drop s) b).1 hb
  have hline : KeepsTo limits.width (front ++ [i]) :=
    hscan.keepsTo.concat ((Growth.not_stuck_of_iff limits front i).1 hends.fits)
  show KeepsTo limits.width
    ((items.drop s).take (s + front.length + 1 + leadingSpaces rest - s))
  rw [take_of_break hitems]
  exact hline.append_blank (blank_of_discardable fun j hj => List.mem_takeWhile_imp hj)

theorem keepsTo_of_toEnd {limits : Limits Rat} {items : List (Instruction Rat)} {s : Nat} {c : Rat}
    (h : endFrom limits items s = some c) : KeepsTo limits.width (items.drop s) :=
  ((toEnd_iff limits s [] (items.drop s) c).1 h).1.keepsTo

/-! ## The lines of a paragraph -/

theorem keepTo_linesOfPieces {width : Rat} {pieces : List (List (Instruction Rat))}
    (hmade : ∀ i ∈ pieces.flatten, i.Made) (h : ∀ piece ∈ pieces, KeepsTo width piece) :
    ∀ l ∈ linesOfPieces pieces,
      l.width = totalWidth l.instructions ∧ KeepsTo width l.instructions := by
  intro l hl
  obtain ⟨piece, hpiece, hard, rfl⟩ := mem_linesOfPieces hl
  refine ⟨width_ofInstructions piece hard, (h piece hpiece).trim fun i hi => ?_⟩
  exact hmade i (List.mem_flatten.2 ⟨piece, hpiece, hi⟩)

theorem keepTo_padLast {width : Rat} {lines : List (Line Rat)} (fonts : Font.FontService Rat)
    (h : ∀ l ∈ lines, l.width = totalWidth l.instructions ∧ KeepsTo width l.instructions) :
    ∀ l ∈ padLast width fonts lines, KeepsTo width l.instructions := by
  intro l hl
  rcases padLast_cases width fonts lines with hpad | ⟨init, last, state, hlines, -, hpad⟩
  · rw [hpad] at hl
    exact (h l hl).2
  · rw [hpad] at hl
    rcases List.mem_append.1 hl with hl | hl
    · apply (h l _).2
      rw [hlines]
      exact List.mem_append_left _ hl
    · obtain ⟨hwidth, hlast⟩ := h last (by rw [hlines]; simp)
      rw [List.mem_singleton.1 hl]
      apply hlast.append_strut
      rw [hwidth]

/-- No line is too wide but for a run at its front that it could not be cut in. -/
theorem lines_keepTo_width (width : Rat) (items : List (Instruction Rat))
    (hmade : ∀ i ∈ items, i.Made) :
    (∀ l rest, greedyLine width items = (.ok (some l), rest) → KeepsTo width l.instructions) ∧
      ∀ config justify fonts, ∀ l ∈ breakLines width config justify fonts items,
        KeepsTo width l.instructions := by
  refine ⟨fun l rest h => greedyLine_keepsTo hmade h, fun config justify fonts => ?_⟩
  by_cases hitems : items = []
  · subst hitems
    intro l hl
    cases hl
  rcases breakLines_cases width config justify fonts hitems with heq | ⟨n, starts, hfound, heq⟩
  · rw [heq]
    exact greedyLines_keepTo hmade
  · obtain ⟨bs, s, c, hbs, hend, rfl⟩ := findBreaks_sound hfound
    have hpieces : ∀ piece ∈ cutAt 0 items (bs.map Break.next), KeepsTo width piece := by
      intro piece hpiece
      rcases hbs.mem_cutAt hpiece with ⟨u, b, -, hb, rfl⟩ | rfl
      · exact keepsTo_of_mem_breaks hb
      · exact keepsTo_of_toEnd hend
    have hlines := keepTo_linesOfPieces (by rw [flatten_cutAt]; exact hmade) hpieces
    rw [heq, List.drop_one, List.tail_cons]
    cases justify with
    | false => exact fun l hl => (hlines l hl).2
    | true => exact keepTo_padLast fonts hlines

/-- The longer word does not fit, and stands alone. -/
theorem words_keepTo_width :
    (∀ i ∈ Sample.words, i.Made) ∧
      (∀ l rest, greedyLine 12 Sample.words = (.ok (some l), rest) → KeepsTo 12 l.instructions) ∧
      ∀ l ∈ breakLines 12 .standard true Sample.fonts Sample.words, KeepsTo 12 l.instructions := by
  have h := lines_keepTo_width 12 Sample.words Sample.words_made
  exact ⟨Sample.words_made, h.1, h.2 .standard true Sample.fonts⟩

end Paragraph
end Galley
