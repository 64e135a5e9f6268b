import Mathlib
import Galley.Pdf.Canvas

/-
The fonts of a canvas.

A font is entered when it is first asked for, and keeps its place.  So the resource that a canvas
has named for a font stays the one it names, whatever is entered later (`idxOf_of_entered`).
-/

namespace Galley
namespace Pdf
namespace Canvas

open Font

variable {α : Type}

/-- The fonts that were asked for, in the order of their resources. -/
def fontKeys (c : Canvas α) : List String := c.fonts.map CanvasFont.key

/-- The same fonts with the programs that they were entered with. -/
def faces (c : Canvas α) : List (String × Option EmbeddedFont) :=
  c.fonts.map fun f => (f.key, f.embedded)

theorem fontKeys_eq (c : Canvas α) : c.fontKeys = c.faces.map Prod.fst := by
  unfold fontKeys faces
  rw [List.map_map]
  rfl

@[simp] theorem fontKeys_addContent (c : Canvas α) (content : String) :
    (c.addContent content).fontKeys = c.fontKeys := rfl

@[simp] theorem fontKeys_addLink (c : Canvas α) (rect : Rect α) (target : String) :
    (c.addLink rect target).fontKeys = c.fontKeys := rfl

@[simp] theorem fontKeys_addDestination (c : Canvas α) (label : String) (view : View α) :
    (c.addDestination label view).fontKeys = c.fontKeys := rfl

/-- Taking note of characters does not touch what the fonts are. -/
@[simp] theorem faces_useGlyphs (c : Canvas α) (resource text : String) :
    (c.useGlyphs resource text).faces = c.faces := by
  have huse (f : CanvasFont) :
      ((CanvasFont.use f text).key, (CanvasFont.use f text).embedded) = (f.key, f.embedded) := by
    unfold CanvasFont.use
    split
    · rfl
    · rfl
  unfold useGlyphs
  split
  · next index _ =>
    unfold faces
    refine List.ext_getElem (by simp) fun i h₁ h₂ => ?_
    rw [List.getElem_map, List.getElem_map, List.getElem_modify]
    split
    · exact huse _
    · rfl
  · rfl

@[simp] theorem fontKeys_useGlyphs (c : Canvas α) (resource text : String) :
    (c.useGlyphs resource text).fontKeys = c.fontKeys := by
  rw [fontKeys_eq, fontKeys_eq, faces_useGlyphs]

section

variable (c : Canvas α) (base : String) (subset : Nat) (embedded : Option EmbeddedFont)

theorem findIdx?_fonts (key : String) :
    (c.fonts.findIdx? fun f => f.key = key) =
      if key ∈ c.fontKeys then some (c.fontKeys.idxOf key) else none := by
  have hkeys : (c.fonts.findIdx? fun f => f.key = key) = c.fontKeys.findIdx? (· == key) := by
    unfold fontKeys
    rw [List.findIdx?_map]
    rfl
  rw [hkeys]
  by_cases h : key ∈ c.fontKeys
  · rw [if_pos h, List.findIdx?_eq_some_iff_findIdx_eq]
    exact ⟨List.idxOf_lt_length_of_mem h, rfl⟩
  · rw [if_neg h, List.findIdx?_eq_none_iff]
    intro k hk
    have hne : k ≠ key := by
      rintro rfl
      exact h hk
    simpa using hne

/-- The resource of a font goes by its place among the fonts; a new font comes last. -/
theorem fontResource_name :
    (c.fontResource base subset embedded).1 =
      resourceName (c.fontKeys.idxOf (fontKey base subset)) := by
  unfold fontResource
  dsimp only
  rw [findIdx?_fonts]
  by_cases h : fontKey base subset ∈ c.fontKeys
  · rw [if_pos h]
  · rw [if_neg h, List.idxOf_eq_length h]
    simp [fontKeys]

theorem faces_fontResource :
    (c.fontResource base subset embedded).2.faces =
      if fontKey base subset ∈ c.fontKeys then c.faces
      else c.faces ++ [(fontKey base subset, embedded)] := by
  unfold fontResource
  dsimp only
  rw [findIdx?_fonts]
  by_cases h : fontKey base subset ∈ c.fontKeys
  · rw [if_pos h, if_pos h]
  · rw [if_neg h, if_neg h]
    simp [faces]

theorem fontKeys_fontResource :
    (c.fontResource base subset embedded).2.fontKeys =
      if fontKey base subset ∈ c.fontKeys then c.fontKeys
      else c.fontKeys ++ [fontKey base subset] := by
  rw [fontKeys_eq, faces_fontResource]
  split
  · rw [fontKeys_eq]
  · rw [fontKeys_eq, List.map_append]
    rfl

theorem prefix_fontResource :
    c.fontKeys <+: (c.fontResource base subset embedded).2.fontKeys := by
  rw [fontKeys_fontResource]
  split
  · exact List.prefix_rfl
  · exact List.prefix_append c.fontKeys [fontKey base subset]

/-- Whatever is entered later, a font that was asked for keeps its place. -/
theorem idxOf_of_entered {keys : List String}
    (h : (c.fontResource base subset embedded).2.fontKeys <+: keys) :
    keys.idxOf (fontKey base subset) = c.fontKeys.idxOf (fontKey base subset) := by
  obtain ⟨later, rfl⟩ := h
  rw [fontKeys_fontResource]
  by_cases hmem : fontKey base subset ∈ c.fontKeys
  · rw [if_pos hmem, List.idxOf_append_of_mem hmem]
  · rw [if_neg hmem, List.append_assoc, List.idxOf_append_of_notMem hmem,
      List.idxOf_eq_length hmem]
    simp

end

end Canvas
end Pdf
end Galley
