import Mathlib
import Galley.Proofs.Scalar
import Galley.Proofs.Options
import Galley.Proofs.Paragraph.Instruction

/-
Settings at the end of a chain of styles.

`Settled` says what a chain of deltas comes down to: the last delta that sets a field wins
(`lastSet`), sizes are measured one against the other, and shifts of the baseline add up since the
baseline was last asked for.  It is carried along the chain by one lemma (`Settled.concat`), which
reads what a single delta does off `Derived` and does not look into `derive`.
-/

namespace Galley
namespace Style

open Font

variable {fonts : FontService Rat} {registry : Registry Rat} {style : RootStyle Rat}
variable {s t : StyleState Rat} {delta : TagStyle Rat} {deltas : List (TagStyle Rat)}

/-! ## One delta -/

/-- The size that a delta asks for, measured against the size around it. -/
def sizeStep (registry : Registry Rat) (size : Rat) (delta : TagStyle Rat) : Except Error Rat :=
  match delta.fontSize with
  | some measure =>
    measure.resolve { relative := size, em := size, current := size, aliases := registry.measures }
  | none => .ok size

/-- The colour that a delta asks for. -/
def colorStep (color : Color Rat) (delta : TagStyle Rat) : Except Error (Color Rat) :=
  match delta.color with
  | some hex => Color.ofHex? hex
  | none => .ok color

/-- How far a delta moves the baseline, by the size around it. -/
def shift (size : Rat) (delta : TagStyle Rat) : Rat :=
  match delta.verticalAlign with
  | some .super => 4 / 10 * size
  | some .sub => -(3 / 10) * size
  | _ => 0

/-- All that a delta does to a state. -/
structure Derived (fonts : FontService Rat) (registry : Registry Rat) (s : StyleState Rat)
    (delta : TagStyle Rat) (t : StyleState Rat) : Prop where
  family : t.family = delta.fontFamily.getD s.family
  fontStyle : t.fontStyle = StyleState.composeStyle s.fontStyle delta.fontWeight delta.fontSlant
  font : t.font = fonts.find t.family t.fontStyle
  size : sizeStep registry s.size delta = .ok t.size
  positive : 0 < t.size
  color : colorStep s.color delta = .ok t.color
  kerning : t.kerning = delta.kerning.getD s.kerning
  rise : t.rise = if delta.verticalAlign = some .baseline then 0 else s.rise + shift s.size delta
  decoration : t.decoration = delta.decoration.getD s.decoration
  align : t.align = delta.align.or s.align
  ancestors : t.ancestors = s.toSetting :: s.ancestors

theorem superRise_eq : (StyleState.superRise : Rat) = 4 / 10 := by
  show mkRat 4 (10 ^ 1) = 4 / 10
  norm_num

theorem subDrop_eq : (StyleState.subDrop : Rat) = 3 / 10 := by
  show mkRat 3 (10 ^ 1) = 3 / 10
  norm_num

theorem rise_eq (s : StyleState Rat) (delta : TagStyle Rat) :
    (match delta.verticalAlign with
      | some .super => s.rise + StyleState.superRise * s.size
      | some .sub => s.rise - StyleState.subDrop * s.size
      | some .baseline => 0
      | none => s.rise) =
      if delta.verticalAlign = some .baseline then 0 else s.rise + shift s.size delta := by
  rw [superRise_eq, subDrop_eq]
  cases h : delta.verticalAlign with
  | none => simp [shift, h]
  | some align =>
    cases align with
    | baseline => simp
    | super => simp [shift, h]
    | sub =>
      simp [shift, h]
      ring

theorem derived_of_derive {serial : Nat} (h : s.derive serial delta fonts registry = .ok t) :
    Derived fonts registry s delta t := by
  unfold StyleState.derive at h
  dsimp only at h
  -- with a size of its own or not, and with a colour of its own or not
  split at h
  all_goals
    next hfontSize =>
    obtain ⟨size, hsize, hchecked⟩ := exists_of_bind_ok h
    obtain ⟨size', hpositive, hcolored⟩ := exists_of_bind_ok hchecked
    obtain ⟨rfl, hpos⟩ := requirePositive_ok hpositive
    split at hcolored
    all_goals
      next hcolor =>
      obtain ⟨color, hfound, hmade⟩ := exists_of_bind_ok hcolored
      cases hmade
      exact {
        family := rfl
        fontStyle := rfl
        font := rfl
        size := by
          rw [sizeStep, hfontSize]
          exact hsize
        positive := not_le.1 hpos
        color := by
          rw [colorStep, hcolor]
          exact hfound
        kerning := rfl
        rise := rise_eq s delta
        decoration := rfl
        align := rfl
        ancestors := rfl }

/-! ## Many deltas -/

/-- What the last delta that sets a field sets it to. -/
def lastSet {β : Type} (field : TagStyle Rat → Option β) (deltas : List (TagStyle Rat)) :
    Option β :=
  deltas.reverse.findSome? field

theorem lastSet_concat {β : Type} (field : TagStyle Rat → Option β)
    (deltas : List (TagStyle Rat)) (delta : TagStyle Rat) :
    lastSet field (deltas ++ [delta]) = (field delta).or (lastSet field deltas) := by
  rw [lastSet, List.reverse_append, List.reverse_singleton, List.findSome?_append]
  cases h : field delta <;> simp [lastSet, h]

/-- Each delta with the size around it. -/
def shifts (sizes : List Rat) (deltas : List (TagStyle Rat)) : List Rat :=
  ((sizes.zip deltas).rtakeWhile fun d => d.2.verticalAlign ≠ some .baseline).map fun d =>
    shift d.1 d.2

theorem shifts_concat {sizes : List Rat} (h : sizes.length = deltas.length) (size : Rat) :
    shifts (sizes ++ [size]) (deltas ++ [delta]) =
      if delta.verticalAlign = some .baseline then []
      else shifts sizes deltas ++ [shift size delta] := by
  rw [shifts, List.zip_append h, List.zip_cons_cons, List.zip_nil_left]
  by_cases hbase : delta.verticalAlign = some .baseline
  · rw [List.rtakeWhile_concat_neg _ _ _ (by simpa using hbase), if_pos hbase]
    rfl
  · rw [List.rtakeWhile_concat_pos _ _ _ (by simpa using hbase), if_neg hbase, List.map_append]
    rfl

/-- `t` is what the deltas make of a root style. -/
structure Settled (fonts : FontService Rat) (registry : Registry Rat) (style : RootStyle Rat)
    (deltas : List (TagStyle Rat)) (t : StyleState Rat) : Prop where
  family : t.family = (lastSet (·.fontFamily) deltas).getD style.family
  bold : t.fontStyle.bold =
    ((lastSet (·.fontWeight) deltas).map fun weight => decide (weight = .bold)).getD
      style.fontStyle.bold
  italic : t.fontStyle.italic =
    ((lastSet (·.fontSlant) deltas).map fun slant => decide (slant = .italic)).getD
      style.fontStyle.italic
  font : t.font = fonts.find t.family t.fontStyle
  size : deltas.foldlM (sizeStep registry) style.size = .ok t.size
  positive : deltas ≠ [] → 0 < t.size
  color : ((lastSet (·.color) deltas).map Color.ofHex?).getD (.ok style.color) = .ok t.color
  kerning : t.kerning =
    (lastSet (·.kerning) deltas).getD (StyleState.root fonts style).kerning
  /-- Shifts are measured by the size of the parent, which the deltas before lead to. -/
  rise : ∃ sizes : List Rat, sizes.length = deltas.length ∧
    (∀ i (hi : i < sizes.length),
      (deltas.take i).foldlM (sizeStep registry) style.size = .ok sizes[i]) ∧
    t.rise = (shifts sizes deltas).sum
  decoration : t.decoration =
    (lastSet (·.decoration) deltas).getD (StyleState.root fonts style).decoration
  align : t.align = (lastSet (·.align) deltas).or (StyleState.root fonts style).align
  depth : t.depth = deltas.length

theorem bold_composeStyle (base : FontStyle) (weight : Option FontWeight)
    (slant : Option FontSlant) : (StyleState.composeStyle base weight slant).bold =
      (weight.map fun weight => decide (weight = .bold)).getD base.bold := by
  rcases weight with _ | _ | _ <;> rcases slant with _ | _ | _ <;>
    simp [StyleState.composeStyle, FontStyle.compose, FontStyle.normal]

theorem italic_composeStyle (base : FontStyle) (weight : Option FontWeight)
    (slant : Option FontSlant) : (StyleState.composeStyle base weight slant).italic =
      (slant.map fun slant => decide (slant = .italic)).getD base.italic := by
  rcases weight with _ | _ | _ <;> rcases slant with _ | _ | _ <;>
    simp [StyleState.composeStyle, FontStyle.compose, FontStyle.normal]

theorem settled_root (fonts : FontService Rat) (registry : Registry Rat) (style : RootStyle Rat) :
    Settled fonts registry style [] (.root fonts style) where
  family := rfl
  bold := rfl
  italic := rfl
  font := rfl
  size := rfl
  positive := fun h => absurd rfl h
  color := rfl
  kerning := rfl
  rise := ⟨[], rfl, fun i hi => absurd hi (Nat.not_lt_zero i), rfl⟩
  decoration := rfl
  align := rfl
  depth := rfl

/-- The last of a list of settings over the one before it, with a default for none. -/
theorem getD_or {β : Type} (first second : Option β) (b : β) :
    (first.or second).getD b = first.getD (second.getD b) := by
  cases first <;> rfl

/-- One more delta. -/
theorem Settled.concat (h : Settled fonts registry style deltas s)
    (hd : Derived fonts registry s delta t) :
    Settled fonts registry style (deltas ++ [delta]) t where
  family := by rw [hd.family, h.family, lastSet_concat, getD_or]
  bold := by rw [hd.fontStyle, bold_composeStyle, h.bold, lastSet_concat, Option.map_or, getD_or]
  italic := by
    rw [hd.fontStyle, italic_composeStyle, h.italic, lastSet_concat, Option.map_or, getD_or]
  font := hd.font
  size := by
    rw [List.foldlM_append, h.size]
    show (sizeStep registry s.size delta >>= pure) = .ok t.size
    rw [hd.size]
    rfl
  positive := fun _ => hd.positive
  color := by
    have hcolor := hd.color
    rw [lastSet_concat, Option.map_or, getD_or, h.color]
    unfold colorStep at hcolor
    cases hset : delta.color with
    | none =>
      rw [hset] at hcolor
      exact hcolor
    | some hex =>
      rw [hset] at hcolor
      exact hcolor
  kerning := by rw [hd.kerning, h.kerning, lastSet_concat, getD_or]
  rise := by
    obtain ⟨sizes, hlength, hsizes, hrise⟩ := h.rise
    refine ⟨sizes ++ [s.size], by simp [hlength], ?_, ?_⟩
    · intro i hi
      rcases Nat.lt_or_ge i sizes.length with hlt | hge
      · rw [List.getElem_append_left hlt, List.take_append_of_le_length (by omega)]
        exact hsizes i hlt
      · obtain rfl : i = sizes.length := by
          rw [List.length_append, List.length_singleton] at hi
          omega
        rw [List.getElem_concat_length rfl, hlength, List.take_left']
        · exact h.size
        · rfl
    · rw [hd.rise, shifts_concat hlength]
      split
      · rfl
      · rw [List.sum_append, List.sum_singleton, hrise]
  decoration := by rw [hd.decoration, h.decoration, lastSet_concat, getD_or]
  align := by rw [hd.align, h.align, lastSet_concat, Option.or_assoc]
  depth := by
    rw [StyleState.depth, hd.ancestors, List.length_cons, List.length_append,
      List.length_singleton, ← h.depth, StyleState.depth]

/-- Deltas one under the other, each state with a serial of its own. -/
def deriveAll (fonts : FontService Rat) (registry : Registry Rat) (s : StyleState Rat)
    (steps : List (Nat × TagStyle Rat)) : Except Error (StyleState Rat) :=
  steps.foldlM (fun s step => s.derive step.1 step.2 fonts registry) s

/-- In the state at the end of a chain each setting is that of the last delta that makes it, or the
root's: weight and slant apart from each other, sizes each measured against the one before, and
shifts added up since the last delta that went back to the baseline. -/
theorem last_setting_wins (steps : List (Nat × TagStyle Rat))
    (h : deriveAll fonts registry (.root fonts style) steps = .ok t) :
    Settled fonts registry style (steps.map Prod.snd) t := by
  induction steps using List.reverseRecOn generalizing t with
  | nil =>
    cases h
    exact settled_root fonts registry style
  | append_singleton steps step ih =>
    rw [deriveAll, List.foldlM_append] at h
    obtain ⟨s, hs, hstep⟩ := exists_of_bind_ok h
    obtain ⟨t', ht, hend⟩ := exists_of_bind_ok hstep
    cases hend
    rw [List.map_append]
    exact (ih hs).concat (derived_of_derive ht)

namespace Sample

/-- Goes up, back to the baseline, up and down again; gets bold and slanted, and loses its weight
while the slant stays; the third size is a name for two points less. -/
def steps : List (Nat × TagStyle Rat) := [
  (1, {
    fontWeight := some .bold, fontSize := some (.expr "150%"), color := some "f00",
    verticalAlign := some .super }),
  (2, {
    fontSlant := some .italic, fontSize := some (.points 20), verticalAlign := some .baseline }),
  (3, {
    fontSize := some (.expr "smaller"), verticalAlign := some .super, kerning := some false }),
  (4, {
    fontWeight := some .normal, fontSize := some (.expr "50%"), verticalAlign := some .sub,
    decoration := some .underline }),
  (5, { align := some .right, color := some "#00ff00" })]

end Sample

theorem last_setting_wins_steps :
    (deriveAll Paragraph.Sample.fonts .builtin (.root Paragraph.Sample.fonts .standard)
      Sample.steps).toOption.map (fun t => (t.size, t.rise, t.fontStyle, t.color)) =
        some (9, 13 / 5, { italic := true }, ⟨0, 1, 0⟩) ∧
    ∃ t, deriveAll Paragraph.Sample.fonts .builtin (.root Paragraph.Sample.fonts .standard)
        Sample.steps = .ok t ∧
      Settled Paragraph.Sample.fonts .builtin .standard (Sample.steps.map Prod.snd) t := by
  have hresult : (deriveAll Paragraph.Sample.fonts .builtin
      (.root Paragraph.Sample.fonts .standard) Sample.steps).toOption.map
        (fun t => (t.size, t.rise, t.fontStyle, t.color)) =
          some (9, 13 / 5, { italic := true }, ⟨0, 1, 0⟩) := by
    decide +kernel
  obtain ⟨t, ht, -⟩ := Option.map_eq_some_iff.1 hresult
  exact ⟨hresult, t, ok_of_toOption ht, last_setting_wins Sample.steps (ok_of_toOption ht)⟩

end Style
end Galley
