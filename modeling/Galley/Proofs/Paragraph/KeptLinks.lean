import Galley.Proofs.Paragraph.Conservation
import Galley.Proofs.Paragraph.LineStarts

/-
What the lines of a text have of its links and of its widths.

Lines lose nothing but white space, and gain nothing but a strut that fills room.  Neither is a
start or an end of a link, so the lines have the links of the stream in their order
(`links_linesOf`); and neither has a width below zero if nothing in the stream has
(`nonneg_linesOf`).
-/

namespace Galley
namespace Paragraph

variable {α : Type} [Scalar α]

/-- The starts and ends of links, in their order. -/
def linksOf (items : List (Instruction α)) : List (Instruction α) :=
  items.filter Instruction.isLink

omit [Scalar α] in
theorem linksOf_append (xs ys : List (Instruction α)) :
    linksOf (xs ++ ys) = linksOf xs ++ linksOf ys :=
  List.filter_append xs ys

/-- White space is no part of a link. -/
theorem Instruction.Made.not_isLink {i : Instruction α} (hi : i.Made) (h : i.discardable = true) :
    i.isLink = false := by
  rw [Bool.eq_false_iff]
  intro hlink
  have hmarker : i.isMarker = true := by
    unfold Instruction.isLink at hlink
    unfold Instruction.isMarker
    cases hkind : i.kind <;> simp_all [Kind.isMarker]
  rw [(hi.marker hmarker).2] at h
  cases h

theorem linksOf_white {items : List (Instruction α)} (hmade : ∀ i ∈ items, i.Made)
    (h : ∀ i ∈ items, i.discardable = true) : linksOf items = [] := by
  refine List.filter_eq_nil_iff.2 fun i hi => ?_
  rw [(hmade i hi).not_isLink (h i hi)]
  simp

theorem Kept.links {seen : Bool} {segment line : List (Instruction α)}
    (h : Kept seen segment line) (hmade : ∀ i ∈ segment, i.Made) :
    linksOf line = linksOf segment := by
  induction h with
  | nil => rfl
  | keep i _ ih =>
    have hrest := ih fun j hj => hmade j (List.mem_cons_of_mem i hj)
    unfold linksOf at hrest ⊢
    rw [List.filter_cons, List.filter_cons, hrest]
  | @drop seen i segment line hd _ _ ih =>
    have hrest := ih fun j hj => hmade j (List.mem_cons_of_mem i hj)
    have hi := (hmade i List.mem_cons_self).not_isLink hd
    rw [hrest]
    unfold linksOf
    rw [List.filter_cons_of_neg (by simp [hi])]

theorem Conserves.links {items : List (Instruction α)} {lines : List (List (Instruction α))}
    (h : Conserves items lines) (hmade : ∀ i ∈ items, i.Made) :
    linksOf lines.flatten = linksOf items := by
  obtain ⟨segments, left, hcut, hlines⟩ := h
  have hitems := hcut.consecutive
  have hleft : linksOf left = [] :=
    linksOf_white (fun i hi => hmade i (by rw [hitems]; exact List.mem_append_right _ hi))
      hcut.white
  have hmade : ∀ i ∈ segments.flatten, i.Made :=
    fun i hi => hmade i (by rw [hitems]; exact List.mem_append_left _ hi)
  rw [hitems, linksOf_append, hleft, List.append_nil]
  clear hcut hitems
  induction hlines with
  | nil => rfl
  | @cons segment line _ _ hline _ ih =>
    rw [List.flatten_cons] at hmade
    rw [List.flatten_cons, List.flatten_cons, linksOf_append, linksOf_append,
      ih fun i hi => hmade i (List.mem_append_right _ hi),
      Kept.links hline fun i hi => hmade i (List.mem_append_left _ hi)]

/-- The links on lines, in their order. -/
def linksOn (lines : List (Line α)) : List (Instruction α) :=
  linksOf (lines.flatMap Line.instructions)

omit [Scalar α] in
theorem linksOn_append (lines more : List (Line α)) :
    linksOn (lines ++ more) = linksOn lines ++ linksOn more := by
  unfold linksOn
  rw [List.flatMap_append, linksOf_append]

theorem linksOn_padLast (width : α) (fonts : Font.FontService α) (lines : List (Line α)) :
    linksOn (padLast width fonts lines) = linksOn lines := by
  rcases padLast_cases width fonts lines with hpad | ⟨init, last, state, rfl, -, hpad⟩
  · rw [hpad]
  · rw [hpad, linksOn_append, linksOn_append]
    congr 1
    show linksOf ((last.instructions ++ [_]) ++ []) = linksOf (last.instructions ++ [])
    rw [List.append_nil, List.append_nil, linksOf_append]
    exact List.append_nil _

section

variable [Scalar.KeepsSign α] {items : List (Instruction α)}

theorem links_greedyLines (width : α) (hmade : ∀ i ∈ items, i.Made)
    (hw : ∀ i ∈ items, 0 ≤ i.width) : linksOn (greedyLines width items) = linksOf items := by
  have hkept := (FrontTrimmed.same items).conserves_greedyLines width hmade hw
  unfold linksOn
  rw [List.flatMap_def, hkept.links hmade]

theorem links_breakLines (width : α) (config : OptimalConfig α) (justify : Bool)
    (fonts : Font.FontService α) (hmade : ∀ i ∈ items, i.Made) (hw : ∀ i ∈ items, 0 ≤ i.width) :
    linksOn (breakLines width config justify fonts items) = linksOf items := by
  by_cases hitems : items = []
  · subst hitems
    rfl
  rcases breakLines_cases width config justify fonts hitems with heq | ⟨n, starts, hfound, heq⟩
  · rw [heq]
    exact links_greedyLines width hmade hw
  · obtain ⟨bs, s, c, hbs, -, rfl⟩ := findBreaks_sound hfound
    have hkept := conserves_linesOfPieces hmade (flatten_cutAt 0 items (bs.map Break.next))
      (hbs.nil_not_mem_cutAt (hbs.lt_length hitems))
    have hlinks : linksOn (linesOfPieces (cutAt 0 items (bs.map Break.next))) = linksOf items := by
      unfold linksOn
      rw [List.flatMap_def, hkept.links hmade]
    rw [heq, List.drop_one, List.tail_cons]
    cases justify with
    | false => exact hlinks
    | true => exact (linksOn_padLast width fonts _).trans hlinks

/-- The lines of a text have its links, in their order. -/
theorem links_linesOf (b : Typesetter α) (width : α) (hmade : ∀ i ∈ items, i.Made)
    (hw : ∀ i ∈ items, 0 ≤ i.width) : linksOn (b.linesOf width items) = linksOf items := by
  refine linesOf_induction (P := fun items lines => (∀ i ∈ items, i.Made) →
    (∀ i ∈ items, 0 ≤ i.width) → linksOn lines = linksOf items) b width items
    ?_ ?_ ?_ ?_ hmade hw
  · exact fun _ hmade hw => links_greedyLines width hmade hw
  · exact fun _ _ => rfl
  · exact fun _ paragraph hmade hw =>
      links_breakLines width b.optimal b.justify b.parser.setup.fonts hmade hw
  · intro xs ys lines more hlines hmore hmade hw
    rw [List.forall_mem_append] at hmade hw
    rw [linksOn_append, linksOf_append, hlines hmade.1 hw.1, hmore hmade.2 hw.2]

end

/-! ## Widths -/

section

variable {items : List (Instruction Rat)}

/-- A line is filled only where it has room. -/
theorem nonneg_breakLines (hw : ∀ i ∈ items, 0 ≤ i.width) (width : Rat)
    (config : OptimalConfig Rat) (justify : Bool) (fonts : Font.FontService Rat) :
    ∀ line ∈ breakLines width config justify fonts items,
      ∀ i ∈ line.instructions, 0 ≤ i.width := by
  by_cases hitems : items = []
  · subst hitems
    intro line hline
    cases hline
  rcases breakLines_cases width config justify fonts hitems with heq | ⟨n, starts, -, heq⟩
  · rw [heq]
    exact fun line hline i hi => hw i (instructions_greedyLines hline hi)
  · have hlines : ∀ line ∈ linesOfPieces (cutAt 0 items (starts.drop 1)),
        ∀ i ∈ line.instructions, 0 ≤ i.width :=
      fun line hline i hi => hw i (instructions_linesOfCuts hline hi)
    rw [heq]
    cases justify with
    | false => exact hlines
    | true =>
      rw [if_pos rfl]
      rcases padLast_cases width fonts (linesOfPieces (cutAt 0 items (starts.drop 1))) with
        hpad | ⟨init, last, state, hsplit, hroom, hpad⟩
      · rw [hpad]
        exact hlines
      · rw [hsplit] at hlines
        rw [hpad]
        intro line hline i hi
        rcases List.mem_append.1 hline with hline | hline
        · exact hlines line (List.mem_append_left _ hline) i hi
        · rw [List.mem_singleton.1 hline] at hi
          rcases List.mem_append.1 hi with hi | hi
          · exact hlines last (by simp) i hi
          · rw [List.mem_singleton.1 hi]
            exact le_of_lt hroom

/-- Nothing on the lines of a text has a width below zero, if nothing in the text has. -/
theorem nonneg_linesOf (hw : ∀ i ∈ items, 0 ≤ i.width) (b : Typesetter Rat) (width : Rat) :
    ∀ line ∈ b.linesOf width items, ∀ i ∈ line.instructions, 0 ≤ i.width := by
  refine linesOf_induction (P := fun items lines => (∀ i ∈ items, 0 ≤ i.width) →
    ∀ line ∈ lines, ∀ i ∈ line.instructions, 0 ≤ i.width) b width items ?_ ?_ ?_ ?_ hw
  · exact fun _ hw line hline i hi => hw i (instructions_greedyLines hline hi)
  · simp
  · exact fun _ paragraph hw =>
      nonneg_breakLines hw width b.optimal b.justify b.parser.setup.fonts
  · intro xs ys lines more hlines hmore hw
    rw [List.forall_mem_append] at hw ⊢
    exact ⟨hlines hw.1, hmore hw.2⟩

end

end Paragraph
end Galley
