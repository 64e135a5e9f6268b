import Galley.Proofs.Outcome
import Galley.Proofs.Paragraph.Batches
import Galley.Formatter

/-
What options that are not refused are good for.

They give a formatter for any text (`ofText_ok`), and the lines of the text are those of its
typesetter.
-/

namespace Galley

open Drawing Font Paragraph Pdf Style

variable {α : Type} [Scalar α]

theorem requirePositive_ok {size x : α} (h : StyleState.requirePositive size = .ok x) :
    x = size ∧ ¬ size ≤ 0 := by
  unfold StyleState.requirePositive at h
  split at h
  · cases h
  · next hbad =>
    cases h
    refine ⟨rfl, fun hle => hbad ?_⟩
    rw [decide_eq_true hle, Bool.or_true]

/-- What options that are not refused are good for. -/
theorem of_validate {options : Options α} (h : options.validate = .ok ()) :
    (options.rotation.isSome → options.corner.isSome) ∧ options.columns ≠ 0 ∧
      StyleState.requirePositive options.fontSize = .ok options.fontSize ∧
      (∃ drawing, options.drawOptions = .ok drawing) ∧
      ∃ color, Color.ofHex? options.color = .ok (color : Color α) := by
  unfold Options.validate at h
  dsimp only at h
  by_cases hrotation : (options.rotation.isSome && options.corner.isNone) = true
  · rw [if_pos hrotation] at h
    cases h
  · rw [if_neg hrotation] at h
    by_cases hcolumns : options.columns = 0
    · rw [if_pos hcolumns] at h
      cases h
    · rw [if_neg hcolumns] at h
      obtain ⟨size, hsize, h⟩ := exists_of_bind_ok h
      obtain ⟨drawing, hdrawing, h⟩ := exists_of_bind_ok h
      obtain ⟨color, hcolor, -⟩ := exists_of_bind_ok h
      obtain ⟨rfl, -⟩ := requirePositive_ok hsize
      refine ⟨?_, hcolumns, hsize, ⟨drawing, hdrawing⟩, color, hcolor⟩
      intro hr
      simpa [hr, Option.isSome_iff_ne_none] using hrotation

/-- The formatter of a text before anything is drawn. -/
def formatterOf (text : String) (options : Options α) (style : RootStyle α)
    (drawing : DrawOptions α) (fonts : FontService α) (registry : Registry α) : Formatter α where
  fonts := fonts
  options := options
  typesetter := .ofText text (.root fonts style) { fonts, registry, mode := options.mode }
    options.algorithm options.optimal (options.align = .justify)
  context := { options := drawing }

theorem ofText_ok (text : String) {options : Options α} {style : RootStyle α}
    {drawing : DrawOptions α} (hvalid : options.validate = .ok ())
    (hstyle : options.rootStyle = .ok style) (hdrawing : options.drawOptions = .ok drawing)
    (fonts : FontService α) (registry : Registry α) :
    Formatter.ofText text options fonts registry =
      .ok (formatterOf text options style drawing fonts registry) := by
  unfold Formatter.ofText
  rw [hvalid, hstyle, hdrawing]
  rfl

theorem layout_formatterOf {text : String} {width : α} {options : Options α}
    {fonts : FontService α} {registry : Registry α} {style : RootStyle α}
    {drawing : DrawOptions α}
    (hf : Formatter.ofText text options fonts registry =
      .ok (formatterOf text options style drawing fonts registry)) :
    layout text width options fonts registry =
      ((formatterOf text options style drawing fonts registry).typesetter.lines width).1 := by
  unfold layout
  rw [hf]
  rfl

end Galley
