import Galley.Proofs.Font.Widths
import Galley.Proofs.Paragraph.Indents
import Galley.Proofs.Paragraph.KeptLinks
import Galley.Proofs.Style.Aliases
import Galley.Proofs.Table

/-
The stream that the lines of a text are broken from.

A text that is laid out is read to its end, so its stream is balanced and all in it is measured
(`exists_stream`).  The text itself cannot narrow a line: glyphs have no widths below zero, and no
tag sets an indent of its own.  Only the registry could, with an indent to the left
(`nonneg_of_layout`).
-/

namespace Galley

open Drawing Font Paragraph Style

/-! ## Texts that are laid out -/

section

variable {α : Type} [Scalar α]

theorem balanced_of_reads {text : String} {root : StyleState α} {setup : Setup α}
    {out : List (Handed α)} {p q : Parser α} (h : Reads (.ofText text root setup) out p)
    (hend : p.next = (.ok none, q)) : Balanced root (out.map Handed.item) := by
  obtain ⟨hwithin, -⟩ := nested_of_reads h
  obtain ⟨-, -, hpushed, hopen⟩ := Parser.standing_of_next_none hend
  rw [show p.standing.openTags = [] from hopen, hpushed, List.append_nil] at hwithin
  exact hwithin.closed.1

/-- What a text hands out that is read to its end. -/
structure StreamOf (fonts : FontService α) (registry : Registry α)
    (items : List (Instruction α)) : Prop where
  balanced : ∃ root, Balanced root items
  measured : ∀ i ∈ items, i.MeasuredBy fonts
  positive : ∀ i ∈ items, ¬ i.state.size ≤ 0
  indented : ∀ i ∈ items, IndentedBy registry i

theorem StreamOf.made {fonts : FontService α} {registry : Registry α}
    {items : List (Instruction α)} (h : StreamOf fonts registry items) : ∀ i ∈ items, i.Made := by
  intro i hi
  obtain ⟨kind, hkind⟩ := h.measured i hi
  exact ⟨kind, i.state, fonts, hkind⟩

/-- The lines of a text are broken from its stream. -/
theorem exists_stream {text : String} {width : α} {options : Options α} {fonts : FontService α}
    {registry : Registry α} {lines : List (Line α)}
    (h : layout text width options fonts registry = .ok lines) :
    ∃ (b : Typesetter α) (items : List (Instruction α)),
      StreamOf fonts registry items ∧ lines = b.linesOf width items := by
  obtain ⟨f, hf, hlines⟩ := exists_of_bind_ok h
  obtain ⟨style, out, q, hroot, hread, htypesetter⟩ := exists_read hf hlines
  obtain ⟨p, hreads, hend⟩ := reads_of_handouts hread
  obtain ⟨seen, hstyles, hseen⟩ := seen_of_reads hreads rfl rfl (Nat.lt_succ_self _) hroot
  have hindented := (indented_of_reads hreads rfl).2
  have hitem {P : Instruction α → Prop} (hP : ∀ j ∈ out, P j.item) :
      ∀ i ∈ out.map Handed.item, P i := by
    intro i hi
    obtain ⟨j, hj, rfl⟩ := List.mem_map.1 hi
    exact hP j hj
  have hqueued : f.typesetter.queued = [] := by
    rw [htypesetter]
    rfl
  have hyields : Yields f.typesetter.parser (out.map Handed.item) := by
    rw [htypesetter]
    exact Parser.yields_of_handouts hread
  have hall := Typesetter.lines_of_yields hqueued hyields width
  refine ⟨f.typesetter, out.map Handed.item, ⟨⟨_, balanced_of_reads hreads hend⟩, ?_, ?_, ?_⟩,
    Except.ok.inj (hlines.symm.trans hall)⟩
  · exact hitem fun j hj => (hseen j hj).1
  · exact hitem fun j hj => hstyles.told.positive _ (hseen j hj).2
  · exact hitem hindented

end

/-! ## Widths -/

/-- A registry indents no paragraph to the left, whatever the size of its style. -/
def IndentsForward (registry : Registry Rat) : Prop :=
  ∀ (tag : String) (style : TagStyle Rat) (measure : Measure Rat) (s : StyleState Rat)
    (indent : Rat), registry.find? tag = some style → style.indent = some measure → 0 < s.size →
      measure.resolve (s.indentContext registry) = .ok indent → 0 ≤ indent

theorem builtin_indents : ∀ entry ∈ (Registry.builtin : Registry Rat).tags.entries,
    entry.2.indent = none ∨ entry.2.indent = some (.expr "3em") := by
  decide +kernel

/-- The built-in tags indent a paragraph by three times the size of its style. -/
theorem builtin_indentsForward : IndentsForward .builtin := by
  intro tag style measure s indent hfound hindent hsize hresolve
  rcases builtin_indents _ (Table.mem_of_findEntry hfound) with hnone | hem
  · rw [hindent] at hnone
    cases hnone
  · obtain rfl : measure = .expr "3em" := Option.some.inj (hindent.symm.trans hem)
    have hread : (Dimension.ofChars? (Text.trim "3em").toList : Option (Dimension Rat)) =
        some { sign := .absolute, number := Scalar.decimal 3 0, unit := "em" } := rfl
    unfold Measure.resolve at hresolve
    rw [resolveIn_dimension hread] at hresolve
    have hthree : indent = Scalar.decimal 3 0 * s.size := (Except.ok.inj hresolve).symm
    have hpos : (0 : Rat) ≤ Scalar.decimal 3 0 := by decide +kernel
    rw [hthree]
    exact mul_nonneg hpos (le_of_lt hsize)

/-- Struts come with the lines, and not with the text. -/
theorem not_strut_of_balanced {α : Type} {s : StyleState α} {items : List (Instruction α)}
    (h : Balanced s items) : ∀ i ∈ items, ∀ width, i.kind ≠ .strut width := by
  induction h with
  | nil => simp
  | leaf hkind _ _ ih =>
    refine List.forall_mem_cons.2 ⟨fun width heq => ?_, ih⟩
    rw [heq] at hkind
    cases hkind
  | @element s first last body rest hpair _ _ _ _ ihbody ihrest =>
    have hboth : (∀ width, first.kind ≠ .strut width) ∧ ∀ width, last.kind ≠ .strut width := by
      generalize first.kind = opening at hpair
      generalize last.kind = closing at hpair
      cases hpair <;> simp
    refine List.forall_mem_cons.2 ⟨hboth.1, fun i hi => ?_⟩
    rcases List.mem_append.1 hi with hi | hi
    · exact ihbody i hi
    · exact (List.forall_mem_cons.2 ⟨hboth.2, ihrest⟩) i hi

section

variable {catalog : Catalog} {registry : Registry Rat}

theorem nonneg_of_stream {items : List (Instruction Rat)} (hforward : IndentsForward registry)
    (h : StreamOf catalog.service registry items) : ∀ i ∈ items, 0 ≤ i.width := by
  intro i hi
  have hsize : 0 < i.state.size := not_le.1 (h.positive i hi)
  obtain ⟨root, hbalanced⟩ := h.balanced
  obtain ⟨kind, hkind⟩ := h.measured i hi
  have hmeasured : i.width = (Instruction.ofKind kind i.state catalog.service).width ∧
      i.kind = (Instruction.ofKind kind i.state catalog.service).kind := by
    rcases hkind with hkind | hkind
    · exact ⟨congrArg Instruction.width hkind, congrArg Instruction.kind hkind⟩
    · exact ⟨(congrArg Instruction.width hkind :), (congrArg Instruction.kind hkind :)⟩
  obtain ⟨hwidth, hsame⟩ := hmeasured
  rw [hwidth]
  cases kind with
  | text content => exact catalog.textWidth_nonneg _ _ (le_of_lt hsize) _
  | strut width => exact absurd hsame (not_strut_of_balanced hbalanced i hi width)
  | paragraphStart indent =>
    rcases h.indented i hi indent hsame with rfl | ⟨tag, style, measure, hfound, hset, hresolved⟩
    · exact le_refl 0
    · exact hforward tag style measure i.state indent hfound hset hsize hresolved
  | tagOpen | tagClose | linkStart | linkEnd | lineBreak | pageBreak | paragraphEnd =>
    exact le_refl 0

/-- What stands on the lines of a text takes room or none, and never less. -/
theorem nonneg_of_layout {text : String} {width : Rat} {options : Options Rat}
    {lines : List (Line Rat)} (hforward : IndentsForward registry)
    (h : layout text width options catalog.service registry = .ok lines) :
    ∀ line ∈ lines, ∀ i ∈ line.instructions, 0 ≤ i.width := by
  obtain ⟨b, items, hstream, rfl⟩ := exists_stream h
  exact nonneg_linesOf (nonneg_of_stream hforward hstream) b width

/-- The lines of a text have its links in their order. -/
theorem links_of_layout {text : String} {width : Rat} {options : Options Rat}
    {lines : List (Line Rat)} (hforward : IndentsForward registry)
    (h : layout text width options catalog.service registry = .ok lines) :
    ∃ root items, Balanced root items ∧ linksOn lines = linksOf items := by
  obtain ⟨b, items, hstream, rfl⟩ := exists_stream h
  obtain ⟨root, hbalanced⟩ := hstream.balanced
  exact ⟨root, items, hbalanced,
    links_linesOf b width hstream.made (nonneg_of_stream hforward hstream)⟩

end

end Galley
