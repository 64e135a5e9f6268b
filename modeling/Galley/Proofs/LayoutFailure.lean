import Galley.Proofs.Drawing.Filler
import Galley.Proofs.Options
import Galley.Proofs.Paragraph.Failure

/-
How laying out a text can fail.

Breaking lines has no errors of its own: a list of instructions is always broken.  Options that make
no sense are refused before the text is looked at.  So with options that are not refused the only
error left is the one that reading the text comes to, and it is found whatever the column and the
way of breaking (`layout_error_iff`).
-/

namespace Galley

open Drawing Font Paragraph Pdf Style

variable {α : Type} [Scalar α]

theorem rootStyle_of_validate {options : Options α} (h : options.validate = .ok ()) :
    ∃ style, options.rootStyle = .ok style := by
  obtain ⟨-, -, -, -, color, hcolor⟩ := of_validate h
  unfold Options.rootStyle
  rw [hcolor]
  exact ⟨_, rfl⟩

/-- How lines are broken is nothing that options are refused for. -/
theorem validate_withAlgorithm (options : Options α) (algorithm : Algorithm)
    (optimal : OptimalConfig α) :
    ({ options with algorithm, optimal } : Options α).validate = options.validate := rfl

/-- With options that are not refused, a text is laid out unless reading it comes to an error, and
that error is then the outcome, for every column and every way of breaking lines.  Breaking the
instructions that were read does not fail. -/
theorem layout_error_iff {options : Options α} (hvalid : options.validate = .ok ()) (text : String)
    (fonts : FontService α) (registry : Registry α) :
    ∃ style, options.rootStyle = .ok style ∧
      (∀ (width : α) (algorithm : Algorithm) (optimal : OptimalConfig α) (e : Error),
        layout text width { options with algorithm, optimal } fonts registry = .error e ↔
          FailsWith e (parserOf text options style fonts registry)) ∧
      ∀ (width : α) (items : List (Instruction α)),
        ∃ made rest, greedyLine width items = (.ok made, rest) := by
  obtain ⟨style, hstyle⟩ := rootStyle_of_validate hvalid
  obtain ⟨-, -, -, ⟨drawing, hdrawing⟩, -⟩ := of_validate hvalid
  refine ⟨style, hstyle, ?_, ?_⟩
  · intro width algorithm optimal e
    have hf := ofText_ok text ((validate_withAlgorithm options algorithm optimal).trans hvalid)
      hstyle hdrawing fonts registry
    rw [layout_formatterOf hf]
    -- the parser of the formatter reads with the mode of the options alone
    exact Typesetter.lines_error_iff _ width e
  · intro width items
    obtain ⟨made, rest, hmade, -⟩ := greedyLine_run width items
    exact ⟨made, rest, hmade⟩

namespace Sample

/-- A tag that is opened behind the third byte and never closed. -/
def unclosed : String := "aa <b>bb"

end Sample

/-- An open tag that is never closed, in every column and with either way of breaking. -/
theorem layout_fails_unclosed :
    (Options.standard : Options Rat).validate = .ok () ∧
      ∀ (width : Rat) (algorithm : Algorithm) (optimal : OptimalConfig Rat),
        layout Sample.unclosed width { Options.standard with algorithm, optimal }
          Paragraph.Sample.fonts .builtin = .error (.nesting .unclosed "b" 3) := by
  have hvalid : (Options.standard : Options Rat).validate = .ok () :=
    ok_of_toOption (by decide +kernel)
  refine ⟨hvalid, ?_⟩
  obtain ⟨style, hstyle, hfails, -⟩ :=
    layout_error_iff hvalid Sample.unclosed Paragraph.Sample.fonts .builtin
  have hread : ((Options.standard : Options Rat).rootStyle >>= fun style =>
      (parserOf Sample.unclosed Options.standard style Paragraph.Sample.fonts
        .builtin).handouts.1.map List.length) = .error (.nesting .unclosed "b" 3) := by
    decide +kernel
  rw [hstyle] at hread
  intro width algorithm optimal
  refine (hfails width algorithm optimal _).2 ?_
  exact Parser.fails_of_handouts (Prod.ext (error_of_map hread) rfl)

end Galley
