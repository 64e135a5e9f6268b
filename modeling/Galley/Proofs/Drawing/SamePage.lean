import Galley.Proofs.Drawing.Advance

/-
What drawing leaves as it was.

A block writes on the page that it is on.  It adds fonts, links, destinations and content, and it
neither turns the page nor touches its size or its margin (`DrawContext.samePage_draw`), so that the
bounds of the canvas are the same for every column.
-/

namespace Galley

open Font Paragraph Pdf Style

variable {α : Type} [Scalar α]

namespace Pdf

/-- The canvas is of the same size and on the same page. -/
structure Canvas.SamePage (c d : Canvas α) : Prop where
  width : d.width = c.width
  height : d.height = c.height
  margin : d.margin = c.margin
  finished : d.finished = c.finished

variable {c d e : Canvas α}

omit [Scalar α] in
theorem Canvas.SamePage.refl (c : Canvas α) : c.SamePage c := ⟨rfl, rfl, rfl, rfl⟩

omit [Scalar α] in
theorem Canvas.SamePage.trans (h : c.SamePage d) (k : d.SamePage e) : c.SamePage e where
  width := k.width.trans h.width
  height := k.height.trans h.height
  margin := k.margin.trans h.margin
  finished := k.finished.trans h.finished

theorem Canvas.SamePage.bounds (h : c.SamePage d) : d.bounds = c.bounds := by
  unfold Canvas.bounds
  rw [h.width, h.height, h.margin]

end Pdf

namespace Drawing
namespace Pen

variable {fonts : FontService α} {p q : Pen α}

theorem samePage_flush (fonts : FontService α) (p : Pen α) :
    p.canvas.SamePage (p.flush fonts).canvas := by
  obtain ⟨entered, hcanvas⟩ := (sameLine_flush fonts p).canvas
  rw [hcanvas]
  exact ⟨rfl, rfl, rfl, rfl⟩

theorem samePage_annotateAll (p : Pen α) (links : List (Option (OpenLink α))) :
    p.canvas.SamePage (p.annotateAll links).canvas := by
  induction links generalizing p with
  | nil => exact .refl _
  | cons link links ih =>
    cases link with
    | none => exact ih p
    | some link =>
      refine Canvas.SamePage.trans ?_ (ih (p.annotate link))
      unfold annotate
      split
      · exact .refl _
      · exact ⟨rfl, rfl, rfl, rfl⟩

theorem Step.samePage {i : Instruction α} {r : Except Error Unit} (h : Step fonts p i r q) :
    p.canvas.SamePage q.canvas := by
  have hflush := samePage_flush fonts p
  cases h with
  | text hkind =>
    unfold addText
    dsimp only
    split
    · split
      · exact .refl _
      · exact hflush
    · exact hflush
  | gap | badAnchor | noLink => exact hflush
  | linkStart hkind destinations => exact hflush.trans ⟨rfl, rfl, rfl, rfl⟩
  | linkEnd hkind hlinks => exact hflush.trans (samePage_annotateAll _ _)
  | plain => exact .refl _

theorem samePage_along (fonts : FontService α) :
    LineRelation fonts fun p q => p.canvas.SamePage q.canvas where
  refl p := .refl p.canvas
  trans := .trans
  drawInstruction h := (step_of_drawInstruction h).samePage
  flush := samePage_flush fonts
  annotateAll := samePage_annotateAll

end Pen

theorem DrawContext.samePage_draw {c d : DrawContext α} {fonts : FontService α}
    {canvas last : Canvas α} {lines : List (Line α)} {x y width : α} {r : Except Error α}
    (h : c.draw fonts canvas lines x y width = (r, d, last)) : canvas.SamePage last := by
  have hdrawn {r : Except Error α} {p : Pen α}
      (hp : (c.start canvas x y).drawLines fonts c.options width 0 lines = (r, p)) :
      canvas.SamePage p.canvas :=
    (Pen.samePage_along fonts).drawLines (fun p _ _ _ _ => .refl p.canvas) hp
  unfold draw at h
  split at h
  · cases h
    exact .refl _
  · split at h
    · next hlines =>
      cases h
      exact hdrawn hlines
    · next hlines =>
      cases h
      refine (hdrawn hlines).trans ?_
      split
      · exact ⟨rfl, rfl, rfl, rfl⟩
      · exact ⟨rfl, rfl, rfl, rfl⟩

end Drawing
end Galley
