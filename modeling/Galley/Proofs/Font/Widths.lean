import Galley.Proofs.Font.Encoding
import Galley.Proofs.Scalar

/-
No text is narrower than nothing.

Kerning moves glyphs closer to each other, but in the standard faces none by more than its own
width (`kernPairs_closer`).  TrueType faces are not kerned.
-/

namespace Galley
namespace Font

/-! ## Standard faces -/

namespace StandardFont

/-- A kerned glyph still goes on from where the glyph before it began. -/
theorem kernPairs_closer (font : StandardFont) : ∀ pair ∈ font.metrics.kernPairs,
    0 ≤ (font.metrics.glyphWidth pair.2.1 : Int) + pair.2.2 := by
  cases font <;> decide +kernel

theorem kern_closer (font : StandardFont) (left right : Char) :
    0 ≤ (font.metrics.glyphWidth right : Int) + font.metrics.kern left right := by
  unfold StandardMetrics.kern
  split
  · next l r k hfound =>
    have hpair := kernPairs_closer font _ (List.mem_of_find?_eq_some hfound)
    have hboth := List.find?_some hfound
    rw [Bool.and_eq_true, decide_eq_true_eq, decide_eq_true_eq] at hboth
    rw [← hboth.2]
    exact hpair
  · rw [add_zero]
    exact Int.natCast_nonneg _

theorem unitsAfter_nonneg (font : StandardFont) (kerning : Bool) (last : Option Char)
    (text : List Char) : 0 ≤ font.metrics.unitsAfter kerning last text := by
  induction text generalizing last with
  | nil => exact le_refl 0
  | cons ch text ih =>
    have hnext : font.metrics.unitsAfter kerning last (ch :: text) =
        (font.metrics.glyphWidth ch + Catalog.pairKern font.metrics kerning last ch) +
          font.metrics.unitsAfter kerning (some ch) text := rfl
    have hglyph : 0 ≤ (font.metrics.glyphWidth ch : Int) +
        Catalog.pairKern font.metrics kerning last ch := by
      unfold Catalog.pairKern
      split
      · split
        · exact kern_closer font _ ch
        · rw [add_zero]
          exact Int.natCast_nonneg _
      · rw [add_zero]
        exact Int.natCast_nonneg _
    rw [hnext]
    exact add_nonneg hglyph (ih (some ch))

end StandardFont

/-! ## Catalogs -/

namespace Catalog

theorem scaleUnits_nonneg {units : Int} {size : Rat} (hunits : 0 ≤ units) (hsize : 0 ≤ size)
    (perEm : Nat) : 0 ≤ scaleUnits units perEm size := by
  obtain ⟨n, rfl⟩ := Int.eq_ofNat_of_zero_le hunits
  have hscaled : (0 : Rat) ≤ Scalar.ofInt (n : Int) := Nat.cast_nonneg n
  exact mul_nonneg (div_nonneg hscaled (Nat.cast_nonneg perEm)) hsize

theorem measured_standard {c : Catalog} {handle : FontHandle} {m : StandardMetrics}
    (h : c.measured handle = .standard m) : ∃ font : StandardFont, m = font.metrics := by
  unfold measured at h
  split at h
  · next font _ =>
    cases h
    exact ⟨font, rfl⟩
  · cases h
  · cases h
    exact ⟨.helvetica, rfl⟩

theorem advances_nonneg (face : Face) {size : Rat} (hsize : 0 ≤ size) {width : Rat}
    (hwidth : 0 ≤ width) (text : List Char) : 0 ≤ text.foldl
      (fun width ch => width + scaleUnits (face.charAdvance ch) face.unitsPerEm size) width := by
  induction text generalizing width with
  | nil => exact hwidth
  | cons ch text ih =>
    exact ih (add_nonneg hwidth (scaleUnits_nonneg (Int.natCast_nonneg _) hsize _))

theorem textWidth_nonneg (c : Catalog) (handle : FontHandle) (text : String) {size : Rat}
    (hsize : 0 ≤ size) (kerning : Bool) : 0 ≤ c.textWidth handle text size kerning := by
  unfold textWidth
  split
  · next m hm =>
    obtain ⟨font, rfl⟩ := measured_standard hm
    exact scaleUnits_nonneg (font.unitsAfter_nonneg kerning none text.toList) hsize 1000
  · next face _ => exact advances_nonneg face hsize (le_refl 0) text.toList

end Catalog
end Font
end Galley
