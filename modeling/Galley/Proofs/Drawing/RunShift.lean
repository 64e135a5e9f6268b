import Galley.Proofs.Drawing.Replay

/-
How far the show operators of a run displace the next glyph.

The rule is stated of what is shown: the measured widths of the texts, and back by the
displacements that the show arrays hold for spaces, which are all that they hold beyond the
encodings of the texts.  A run that is as wide as its texts then goes as far as layout has it go
(`shiftOf_eq`).
-/

namespace Galley
namespace Drawing

open Font Paragraph Pdf Style

def adjustOf : ShowItem Rat → Rat
  | .bytes _ => 0
  | .adjust amount => amount

/-- All displacements of a show array. -/
def adjusted (items : List (ShowItem Rat)) : Rat := (items.map adjustOf).sum

def adjustedIn (groups : List (Group Rat)) : Rat := (groups.map fun g => adjusted g.items).sum

/-- The displacements that the encodings of a run's texts bring with them. -/
def encodedIn (fonts : FontService Rat) (state : StyleState Rat)
    (segments : List (String × Nat)) : Rat :=
  (segments.map fun s =>
    ((fonts.encode state.font s.1 state.kerning).map fun chunk => adjusted chunk.items).sum).sum

/-- The displacements that the show arrays of a run have for its spaces. -/
def justification (fonts : FontService Rat) (padding : Rat) (run : Run Rat) : Rat :=
  adjustedIn (groupsOf fonts padding run) - encodedIn fonts run.state run.segments

/-- How far the show operators of a run displace the next glyph: by the measured widths of its
texts, and back by a thousandth of the size for each unit of displacement for its spaces. -/
def shiftOf (fonts : FontService Rat) (padding : Rat) (run : Run Rat) : Rat :=
  (run.segments.map fun s =>
    fonts.textWidth run.state.font s.1 run.state.size run.state.kerning).sum -
      justification fonts padding run * run.state.size / 1000

theorem adjusted_concat (items : List (ShowItem Rat)) (item : ShowItem Rat) :
    adjusted (items ++ [item]) = adjusted items + adjustOf item := by
  unfold adjusted
  simp

theorem adjusted_pushItem (items : List (ShowItem Rat)) (item : ShowItem Rat) :
    adjusted (pushItem items item) = adjusted items + adjustOf item := by
  unfold pushItem
  split
  · next before data hlast =>
    obtain ⟨init, rfl⟩ := List.getLast?_eq_some_iff.1 hlast
    rw [List.dropLast_concat, adjusted_concat, adjusted_concat]
    simp [adjustOf]
  · exact adjusted_concat _ _

theorem adjusted_pushItems (more items : List (ShowItem Rat)) :
    adjusted (more.foldl pushItem items) = adjusted items + adjusted more := by
  induction more generalizing items with
  | nil => simp [adjusted]
  | cons item more ih =>
    rw [List.foldl_cons, ih, adjusted_pushItem, add_assoc]
    rfl

theorem adjustedIn_addChunk (groups : List (Group Rat)) (chunk : EncodedChunk Rat) :
    adjustedIn (addChunk groups chunk) = adjustedIn groups + adjusted chunk.items := by
  cases groups with
  | nil => simp [addChunk, adjustedIn]
  | cons g rest =>
    unfold addChunk
    dsimp only
    by_cases hsubset : g.subset = chunk.subset
    · rw [if_pos hsubset]
      show adjusted (chunk.items.foldl pushItem g.items) + adjustedIn rest =
        adjusted g.items + adjustedIn rest + adjusted chunk.items
      rw [adjusted_pushItems]
      ring
    · rw [if_neg hsubset]
      show adjusted chunk.items + (adjusted g.items + adjustedIn rest) =
        adjusted g.items + adjustedIn rest + adjusted chunk.items
      ring

theorem addChunk_ne_nil (groups : List (Group Rat)) (chunk : EncodedChunk Rat) :
    addChunk groups chunk ≠ [] := by
  unfold addChunk
  split
  · split
    · simp
    · simp
  · simp

theorem adjustedIn_addChunks (chunks : List (EncodedChunk Rat)) (groups : List (Group Rat)) :
    adjustedIn (chunks.foldl addChunk groups) =
      adjustedIn groups + (chunks.map fun chunk => adjusted chunk.items).sum := by
  induction chunks generalizing groups with
  | nil => simp
  | cons chunk chunks ih =>
    rw [List.foldl_cons, ih, adjustedIn_addChunk, List.map_cons, List.sum_cons, add_assoc]

theorem addChunks_ne_nil {chunks : List (EncodedChunk Rat)} (h : chunks ≠ [])
    (groups : List (Group Rat)) : chunks.foldl addChunk groups ≠ [] := by
  obtain ⟨init, last, rfl⟩ := (List.eq_nil_or_concat' chunks).resolve_left h
  rw [List.foldl_append]
  exact addChunk_ne_nil _ last

theorem adjustedIn_addAdjust {groups : List (Group Rat)} (h : groups ≠ []) (amount : Rat) :
    adjustedIn (addAdjust groups amount) = adjustedIn groups + amount := by
  cases groups with
  | nil => exact absurd rfl h
  | cons g rest =>
    show adjusted (g.items ++ [.adjust amount]) + adjustedIn rest =
      adjusted g.items + adjustedIn rest + amount
    rw [adjusted_concat]
    show adjusted g.items + amount + adjustedIn rest = _
    ring

section

variable {fonts : FontService Rat}

theorem addSegment_ne_nil {state : StyleState Rat} {segment : String × Nat}
    (h : fonts.encode state.font segment.1 state.kerning ≠ []) (adjust : Rat)
    (groups : List (Group Rat)) : addSegment fonts state adjust groups segment ≠ [] := by
  have hne := addChunks_ne_nil h groups
  unfold addSegment
  dsimp only
  split
  · unfold addAdjust
    split
    · simp
    · next hnil => exact absurd hnil hne
  · exact hne

/-- The spaces of a text can only be given room if something is shown for it. -/
theorem adjustedIn_addSegment {state : StyleState Rat} {segment : String × Nat}
    (h : 0 < segment.2 → fonts.encode state.font segment.1 state.kerning ≠ []) (adjust : Rat)
    (groups : List (Group Rat)) :
    adjustedIn (addSegment fonts state adjust groups segment) =
      adjustedIn groups + encodedIn fonts state [segment] + adjust * (segment.2 : Rat) := by
  have hencoded : encodedIn fonts state [segment] =
      ((fonts.encode state.font segment.1 state.kerning).map fun chunk =>
        adjusted chunk.items).sum := by
    simp [encodedIn]
  rw [hencoded, ← adjustedIn_addChunks]
  unfold addSegment
  dsimp only
  by_cases hspaces : (0 < segment.2 && adjust != 0) = true
  · have hsome : 0 < segment.2 := by
      rw [Bool.and_eq_true, decide_eq_true_eq] at hspaces
      exact hspaces.1
    rw [if_pos (by simpa using hspaces)]
    exact adjustedIn_addAdjust (addChunks_ne_nil (h hsome) groups) _
  · rw [if_neg (by simpa using hspaces)]
    have hzero : adjust * (segment.2 : Rat) = 0 := by
      rcases Nat.eq_zero_or_pos segment.2 with h | h
      · rw [h, Nat.cast_zero, mul_zero]
      · have : adjust = 0 := by
          by_contra hadjust
          exact hspaces (by simp [h, hadjust])
        rw [this, zero_mul]
    rw [hzero, add_zero]

theorem encodedIn_cons (state : StyleState Rat) (segment : String × Nat)
    (segments : List (String × Nat)) :
    encodedIn fonts state (segment :: segments) =
      encodedIn fonts state [segment] + encodedIn fonts state segments := by
  simp [encodedIn]

theorem adjustedIn_addSegments {state : StyleState Rat} {segments : List (String × Nat)}
    (h : ∀ s ∈ segments, 0 < s.2 → fonts.encode state.font s.1 state.kerning ≠ []) (adjust : Rat)
    (groups : List (Group Rat)) :
    adjustedIn (segments.foldl (addSegment fonts state adjust) groups) =
      adjustedIn groups + encodedIn fonts state segments +
        adjust * (((segments.map Prod.snd).sum : Nat) : Rat) := by
  induction segments generalizing groups with
  | nil => simp [encodedIn]
  | cons segment segments ih =>
    obtain ⟨hsegment, hsegments⟩ := List.forall_mem_cons.1 h
    rw [List.foldl_cons, ih hsegments, adjustedIn_addSegment hsegment,
      encodedIn_cons state segment segments, List.map_cons, List.sum_cons, Nat.cast_add]
    ring

/-- The show arrays of a run hold what its texts are encoded to, and the displacements of spaces. -/
theorem adjustedIn_groupsOf {run : Run Rat}
    (h : ∀ s ∈ run.segments, 0 < s.2 → fonts.encode run.state.font s.1 run.state.kerning ≠ [])
    (padding : Rat) :
    adjustedIn (groupsOf fonts padding run) = encodedIn fonts run.state run.segments +
      spaceAdjust padding run.state.size * (((run.segments.map Prod.snd).sum : Nat) : Rat) := by
  unfold groupsOf
  show ((List.reverse _).map fun g : Group Rat => adjusted g.items).sum = _
  rw [List.map_reverse, List.sum_reverse]
  show adjustedIn _ = _
  rw [adjustedIn_addSegments h]
  show 0 + _ + _ = _
  rw [zero_add]

/-- Points to the right that a displacement comes to under a size. -/
def points (size amount : Rat) : Rat := -(amount * size / 1000)

theorem points_add (size a b : Rat) : points size (a + b) = points size a + points size b := by
  unfold points
  ring

theorem sum_points (size : Rat) (amounts : List Rat) :
    (amounts.map (points size)).sum = points size amounts.sum := by
  induction amounts with
  | nil => simp [points]
  | cons amount amounts ih => rw [List.map_cons, List.sum_cons, List.sum_cons, ih, points_add]

/-- Under a size above zero the displacements of spaces come to their room, and else to nothing. -/
theorem points_spaceAdjust (padding size : Rat) (spaces : Nat) :
    points size (spaceAdjust padding size * (spaces : Rat)) =
      if 0 < size then padding * (spaces : Rat) else 0 := by
  unfold points spaceAdjust
  by_cases hsize : 0 < size
  · rw [if_pos hsize, if_pos hsize]
    have hne : size ≠ 0 := ne_of_gt hsize
    push_cast
    field_simp
  · rw [if_neg hsize, if_neg hsize]
    simp

end

/-- Something is shown for every text. -/
def Encodes (fonts : FontService Rat) : Prop :=
  ∀ font text kerning, fonts.encode font text kerning ≠ []

section

variable {fonts : FontService Rat} (hfonts : Encodes fonts)
include hfonts

theorem groupsOf_ne_nil {run : Run Rat} (h : run.segments ≠ []) (padding : Rat) :
    groupsOf fonts padding run ≠ [] := by
  obtain ⟨init, last, hlast⟩ := (List.eq_nil_or_concat' run.segments).resolve_left h
  unfold groupsOf
  rw [hlast, List.foldl_append, ne_eq, List.reverse_eq_nil_iff]
  exact addSegment_ne_nil (hfonts _ _ _) _ _

/-- The run is as wide as its texts are measured, and its size is above zero. -/
structure Fits (fonts : FontService Rat) (run : Run Rat) : Prop where
  width : run.width = (run.segments.map fun s =>
    fonts.textWidth run.state.font s.1 run.state.size run.state.kerning).sum
  size : 0 < run.state.size
  nonempty : run.segments ≠ []

/-- The displacements of a run give each of its spaces its share of the room. -/
theorem shiftOf_eq {run : Run Rat} (h : Fits fonts run) (padding : Rat) :
    shiftOf fonts padding run =
      run.width + padding * (((run.segments.map Prod.snd).sum : Nat) : Rat) := by
  have hback := points_spaceAdjust padding run.state.size (run.segments.map Prod.snd).sum
  rw [if_pos h.size] at hback
  unfold shiftOf justification
  rw [adjustedIn_groupsOf fun s _ _ => hfonts _ _ _, add_sub_cancel_left, ← h.width,
    sub_eq_add_neg]
  exact congrArg (run.width + ·) hback

end

end Drawing
end Galley
