import Galley.Proofs.Appending
import Galley.Proofs.Paragraph.LineStarts
import Galley.Proofs.Paragraph.Measured

/-
Where white space is left in front of a line.

White space vanishes at a break: it stays with the line that ends there, and the next line starts
with something else (`linesOf_startClear`).  It is left in front only behind an instruction that
shows nothing and starts the line, such as an opening tag (`soft_line_clear_iff`).
-/

namespace Galley

open Drawing Font Paragraph Style

variable {α : Type} [Scalar α]

/-- All that a text hands out is measured. -/
theorem exists_made {text : String} {options : Options α} {fonts : FontService α}
    {registry : Registry α} {f : Formatter α} {width : α} {lines : List (Line α)}
    (hf : Formatter.ofText text options fonts registry = .ok f)
    (hlines : (f.lines width).1 = .ok lines) :
    ∃ items, Yields f.typesetter.parser items ∧ ∀ i ∈ items, i.Made := by
  obtain ⟨seen, bound, -, hfeeds⟩ := exists_told hf hlines
  obtain ⟨items, hitems, hseen⟩ := hfeeds.parser
  refine ⟨items, hitems, fun i hi => ?_⟩
  obtain ⟨⟨kind, hkind⟩, -⟩ := hseen i hi
  exact ⟨kind, i.state, fonts, hkind⟩

/-- A text that is read to its end is laid out in every column, and behind a soft line exactly
those lines lead with white space that start with something which is not white space, shows nothing
and, with greedy breaking, is no closing marker, and which has white space behind it before
anything visible. -/
theorem soft_line_clear_iff [Scalar.KeepsSign α] {text : String} {options : Options α}
    {fonts : FontService α} {registry : Registry α} {style : RootStyle α} {out : List (Handed α)}
    {q : Parser α} (hvalid : options.validate = .ok ()) (hstyle : options.rootStyle = .ok style)
    (hread : (parserOf text options style fonts registry).handouts = (.ok out, q)) (width : α) :
    ∃ lines, layout text width options fonts registry = .ok lines ∧
      lines.IsChain fun l next => l.hardBreak = false →
        (leadsWithSpace next.instructions = true ↔
          ∃ i more, next.instructions = i :: more ∧ i.discardable = false ∧
            i.isVisible = false ∧ (options.algorithm = .greedy → i.isClosing = false) ∧
            leadsWithSpace more = true) := by
  obtain ⟨-, -, -, ⟨drawing, hdrawing⟩, -⟩ := of_validate hvalid
  have hf := ofText_ok text hvalid hstyle hdrawing fonts registry
  have hlines := Typesetter.lines_of_yields
    (b := (formatterOf text options style drawing fonts registry).typesetter) rfl
    (Parser.yields_of_handouts hread) width
  obtain ⟨items, hitems, hmade⟩ := exists_made hf hlines
  have hall := Typesetter.lines_of_yields
    (b := (formatterOf text options style drawing fonts registry).typesetter) rfl hitems width
  refine ⟨_, (layout_formatterOf hf).trans hall, ?_⟩
  exact (linesOf_startClear _ width hmade).chain.imp fun l next hclear hsoft => (hclear hsoft).iff

namespace Sample

/-- Two words with white space on both sides of the tag between them. -/
def spacedTag : String := "aaaa <b> bbb</b>"

def courierBy (algorithm : Algorithm) : Options Rat := { courierTen with algorithm }

end Sample

theorem soft_line_clear_spacedTag :
    ∃ lines, layout Sample.spacedTag 24 (Sample.courierBy .greedy) Catalog.standard.service
        .builtin = .ok lines ∧
      lines.IsChain fun l next => l.hardBreak = false →
        (leadsWithSpace next.instructions = true ↔
          ∃ i more, next.instructions = i :: more ∧ i.discardable = false ∧
            i.isVisible = false ∧
            ((Sample.courierBy .greedy).algorithm = .greedy → i.isClosing = false) ∧
            leadsWithSpace more = true) := by
  have hkinds : kindsOf Sample.spacedTag (Sample.courierBy .greedy) =
      some [.text "aaaa", .text " ", .tagOpen "b", .text " ", .text "bbb", .tagClose "b"] := by
    decide +kernel
  obtain ⟨style, out, q, hstyle, hread, -⟩ := exists_of_kindsOf hkinds
  exact soft_line_clear_iff
    (show (Sample.courierBy .greedy).validate = .ok () from ok_of_toOption (by decide +kernel))
    hstyle hread 24

/-- A soft line with one behind it that leads with white space. -/
def leadsBehindSoft : List (Line Rat) → Bool
  | [l, next] => !l.hardBreak && leadsWithSpace next.instructions
  | _ => false

theorem of_leadsBehindSoft {fuel : Nat} {text : String} {width : Rat} {options : Options Rat}
    (h : (layoutWithin fuel text width options).any leadsBehindSoft = true) :
    ∃ l next, layout text width options Catalog.standard.service .builtin = .ok [l, next] ∧
      l.hardBreak = false ∧ leadsWithSpace next.instructions = true := by
  rw [Option.any_eq_true] at h
  obtain ⟨lines, hlines, hleads⟩ := h
  unfold leadsBehindSoft at hleads
  split at hleads
  · next l next =>
    rw [Bool.and_eq_true, Bool.not_eq_true'] at hleads
    exact ⟨l, next, layout_eq_of_within hlines, hleads⟩
  · cases hleads

/-- The white space behind the tag is left in front of the second line, whichever way lines are
broken. -/
theorem space_behind_tag_leads :
    (∃ l next, layout Sample.spacedTag 24 (Sample.courierBy .greedy) Catalog.standard.service
        .builtin = .ok [l, next] ∧
      l.hardBreak = false ∧ leadsWithSpace next.instructions = true) ∧
    (∃ l next, layout Sample.spacedTag 24 (Sample.courierBy .optimal) Catalog.standard.service
        .builtin = .ok [l, next] ∧
      l.hardBreak = false ∧ leadsWithSpace next.instructions = true) := by
  have hgreedy : (layoutWithin 3 Sample.spacedTag 24 (Sample.courierBy .greedy)).any
      leadsBehindSoft = true := by
    decide +kernel
  have hoptimal : (layoutWithin 3 Sample.spacedTag 24 (Sample.courierBy .optimal)).any
      leadsBehindSoft = true := by
    decide +kernel
  exact ⟨of_leadsBehindSoft hgreedy, of_leadsBehindSoft hoptimal⟩

end Galley
