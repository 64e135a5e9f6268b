import Galley.Proofs.Drawing.Placement

/-
Justified lines.

The room of a line is split by the spaces that it counts, and handed out text by text: the pen moves
on by it, and the show arrays displace the next glyph by it, in thousandths of the size of the run.
Here both accounts are taken of one line.  How far the pen comes is the sum over what its
instructions take (`x_drawLine`).  How far the show arrays displace is read off the operators by a
viewer who knows only the size in force.  It is that of the run that is shown, as the operators can
be gone over with the runs (`Replays.displaces`), and so the two accounts are sums over the same
texts.
-/

namespace Galley
namespace Drawing

open Font Paragraph Pdf Style

/-! ## Displacements of show arrays -/

/-- What a viewer knows of displacements. -/
structure Displacer where
  /-- The size in force. -/
  size : Rat
  /-- Points to the right by which show arrays have displaced glyphs so far. -/
  total : Rat

def Displacer.step (d : Displacer) : TextOp Rat → Displacer
  | .font _ size => { d with size }
  | .glyphs items => { d with total := d.total + points d.size (adjusted items) }
  | .move .. | .matrix .. | .fillColor _ | .rise _ | .renderMode _ => d

def displacer (ops : List (TextOp Rat)) : Displacer :=
  ops.foldl Displacer.step { size := 0, total := 0 }

/-- Points to the right by which the displacements of all show arrays move glyphs, each under the
size that is in force. -/
def displaced (ops : List (TextOp Rat)) : Rat := (displacer ops).total

theorem displacer_concat (ops : List (TextOp Rat)) (op : TextOp Rat) :
    displacer (ops ++ [op]) = (displacer ops).step op := by
  unfold displacer
  rw [List.foldl_append]
  rfl

/-- Points by which a part of a run is displaced under its own size. -/
def Shown.displacement (s : Shown Rat) : Rat := points s.state.size (adjusted s.group.items)

/-- Operators that can be gone over with what is shown displace it under its own sizes. -/
theorem Replays.displaces {resource : FontHandle → Nat → String} {script : List (Shown Rat)}
    {ops : List (TextOp Rat)} {r : Replay Rat}
    (h : Replays resource { left := script } ops r) :
    (∀ name size, r.font = some (name, size) → (displacer ops).size = size) ∧
      displaced ops + (r.left.map Shown.displacement).sum =
        (script.map Shown.displacement).sum := by
  generalize hstart : ({ left := script } : Replay Rat) = start at h
  induction h with
  | nil =>
    subst hstart
    exact ⟨fun name size h => (by cases h), zero_add _⟩
  | @concat s t ops op h hstep ih =>
    obtain ⟨hsize, hsum⟩ := ih
    unfold displaced at hsum ⊢
    rw [displacer_concat]
    cases hstep with
    | move | matrix | renderMode | fillColor | rise => exact ⟨hsize, hsum⟩
    | font hleft _ =>
      refine ⟨fun name size h => ?_, hsum⟩
      cases h
      rfl
    | @glyphs shown left size hleft hfont hown =>
      refine ⟨hsize, ?_⟩
      have hforce : (displacer ops).size = shown.state.size :=
        (hsize _ _ hfont).trans (eq_of_beq hown)
      rw [hleft, List.map_cons, List.sum_cons] at hsum
      rw [← hsum]
      show (displacer ops).total + points (displacer ops).size (adjusted shown.group.items) + _ = _
      rw [hforce, add_assoc]
      rfl

namespace Pen

variable {fonts : FontService Rat} {script left : List (Shown Rat)} {p q : Pen Rat}

theorem Follows.displaces (h : p.Follows fonts script left) :
    displaced p.ops + (left.map Shown.displacement).sum = (script.map Shown.displacement).sum :=
  (h p.canvas.fontKeys List.prefix_rfl).displaces.2

/-- A line displaces what it shows. -/
theorem displaced_drawLine {common : TextAlign} {width baseline : Rat} {line : Line Rat}
    (h : p.Follows fonts script (shownOn fonts common width line ++ left)) (hrun : p.run = none)
    (hq : p.drawLine fonts common width line baseline = (.ok (), q)) :
    displaced q.ops =
      displaced p.ops + ((shownOn fonts common width line).map Shown.displacement).sum := by
  obtain ⟨more, hmore, hdone⟩ := h.drawLine hrun (fun i _ => definite_rat i.state) hq
  obtain ⟨-, rfl⟩ := hdone rfl
  have hbefore := h.displaces
  rw [List.map_append, List.sum_append, ← hmore.displaces] at hbefore
  linarith

/-! ## How far the pen comes -/

theorem run_drawLine {common : TextAlign} {width baseline : Rat} {line : Line Rat}
    (hq : p.drawLine fonts common width line baseline = (.ok (), q)) : q.run = none := by
  unfold Pen.drawLine at hq
  dsimp only at hq
  split at hq
  · cases hq
  · next drawn _ =>
    cases hq
    exact ((frame_flush fonts drawn).trans (frame_annotateAll _ _)).run.trans (by simp)

/-- No text waits between lines. -/
theorem run_drawLines {options : DrawOptions Rat} {width top used : Rat} {lines : List (Line Rat)}
    (hrun : p.run = none) (hq : p.drawLines fonts options width top lines = (.ok used, q)) :
    q.run = none := by
  induction lines generalizing p top with
  | nil =>
    cases hq
    exact hrun
  | cons line lines ih =>
    rw [Pen.drawLines] at hq
    split at hq
    · cases hq
    · next drawn hdrawn => exact ih (run_drawLine hdrawn) hq

theorem reach_drawInstructions {items : List (Instruction Rat)}
    (hq : p.drawInstructions fonts items = (.ok (), q)) :
    q.reach = p.reach + (items.map (advance p.padding)).sum := by
  induction items generalizing p with
  | nil =>
    cases hq
    simp
  | cons i items ih =>
    rw [Pen.drawInstructions] at hq
    split at hq
    · cases hq
    · next next hstep =>
      obtain ⟨hblock, hreach⟩ := (step_of_drawInstruction hstep).advances
      rw [ih hq, hreach, hblock.padding, List.map_cons, List.sum_cons, add_assoc]

/-- A line comes as far as its instructions take room. -/
theorem x_drawLine {common : TextAlign} {width baseline : Rat} {line : Line Rat}
    (hrun : p.run = none) (hq : p.drawLine fonts common width line baseline = (.ok (), q)) :
    q.x = (placeLine (alignOf common line) width line).1 + (line.instructions.map
      (advance (placeLine (alignOf common line) width line).2)).sum := by
  unfold Pen.drawLine at hq
  generalize placeLine (alignOf common line) width line = place at hq ⊢
  dsimp only at hq
  split at hq
  · cases hq
  · next drawn hdrawn =>
    cases hq
    have hstart : (p.startLine line baseline place.1 place.2).run = none := hrun
    have hreach := reach_drawInstructions hdrawn
    rw [reach_of_run hstart] at hreach
    obtain ⟨canvas, hcanvas⟩ := annotateAll_cases (drawn.flush fonts)
      (drawn.flush fonts).links.reverse
    show ((drawn.flush fonts).annotateAll _).x = _
    rw [hcanvas]
    show (drawn.flush fonts).x = _
    rw [(sameLine_flush fonts drawn).x]
    exact hreach

end Pen

/-! ## Displacements of runs, text by text -/

section

variable {fonts : FontService Rat} {padding : Rat}

/-- Points that a text is displaced by: what its encoding brings with it, and the room of its
spaces, if its size is above zero. -/
def textDisplacement (fonts : FontService Rat) (padding : Rat) (state : StyleState Rat)
    (segment : String × Nat) : Rat :=
  points state.size (encodedIn fonts state [segment]) +
    if 0 < state.size then padding * (segment.2 : Rat) else 0

def Run.displacement (fonts : FontService Rat) (padding : Rat) (run : Run Rat) : Rat :=
  (run.segments.map (textDisplacement fonts padding run.state)).sum

/-- The parts of a run are displaced as its texts are. -/
theorem displacement_shownOf {run : Run Rat}
    (h : ∀ s ∈ run.segments, 0 < s.2 → fonts.encode run.state.font s.1 run.state.kerning ≠ []) :
    ((shownOf fonts padding run).map Shown.displacement).sum =
      run.displacement fonts padding := by
  have htexts (segments : List (String × Nat)) :
      (segments.map (textDisplacement fonts padding run.state)).sum =
        points run.state.size (encodedIn fonts run.state segments +
          spaceAdjust padding run.state.size * (((segments.map Prod.snd).sum : Nat) : Rat)) := by
    induction segments with
    | nil => simp [encodedIn, points]
    | cons segment segments ih =>
      have hown : textDisplacement fonts padding run.state segment =
          points run.state.size (encodedIn fonts run.state [segment]) +
            points run.state.size (spaceAdjust padding run.state.size * (segment.2 : Rat)) := by
        rw [points_spaceAdjust]
        rfl
      rw [List.map_cons, List.sum_cons, ih, hown, encodedIn_cons run.state segment segments,
        List.map_cons, List.sum_cons, Nat.cast_add, ← points_add, ← points_add]
      congr 1
      ring
  unfold Run.displacement
  rw [htexts, ← adjustedIn_groupsOf h, adjustedIn, ← sum_points]
  simp only [shownOf, List.map_map]
  rfl

/-- Points that the text of an instruction is displaced by. -/
def ownDisplacement (fonts : FontService Rat) (padding : Rat) (i : Instruction Rat) : Rat :=
  match i.text? with
  | some content => textDisplacement fonts padding i.state (content, i.spaces)
  | none => 0

theorem sum_ownText (items : List (Instruction Rat)) :
    ((items.filterMap (ownText id)).map fun t => textDisplacement fonts padding t.1 t.2).sum =
      (items.map (ownDisplacement fonts padding)).sum := by
  induction items with
  | nil => rfl
  | cons i items ih =>
    rw [List.map_cons, List.sum_cons, ← ih]
    cases htext : i.text? with
    | none => simp [ownText, ownDisplacement, htext]
    | some content => simp [ownText, ownDisplacement, htext]

/-- Runs are displaced as the texts of the instructions that they are made of. -/
theorem displacement_runsFrom {items : List (Instruction Rat)} (h : Instruction.ToldApart items) :
    ((runsFrom none items).map (Run.displacement fonts padding)).sum =
      (items.map (ownDisplacement fonts padding)).sum := by
  have hrun (run : Run Rat) : run.displacement fonts padding =
      ((run.texts id).map fun t => textDisplacement fonts padding t.1 t.2).sum := by
    unfold Run.displacement Run.texts
    rw [List.map_map]
    rfl
  rw [← sum_ownText, ← styles_runsFrom h, List.map_flatMap, List.flatMap_def, List.sum_flatten,
    List.map_map]
  congr 1
  exact List.map_congr_left fun run _ => hrun run

end

/-! ## Room and displacements of a line -/

/-- Points that the encodings of texts displace by themselves, where a pair is kerned. -/
def kerned (fonts : FontService Rat) (items : List (Instruction Rat)) : Rat :=
  (items.map fun i => (i.text?.map fun content =>
    points i.state.size (encodedIn fonts i.state [(content, i.spaces)])).getD 0).sum

def spacesIn (items : List (Instruction Rat)) : Nat := (items.map Instruction.spaces).sum

theorem spacesIn_cons (i : Instruction Rat) (items : List (Instruction Rat)) :
    spacesIn (i :: items) = i.spaces + spacesIn items := by
  simp [spacesIn]

theorem spacesIn_filter {items : List (Instruction Rat)} {kept : Instruction Rat → Bool}
    (h : ∀ i ∈ items, 0 < i.spaces → kept i = true) :
    spacesIn (items.filter kept) = spacesIn items := by
  induction items with
  | nil => rfl
  | cons i items ih =>
    obtain ⟨hi, hitems⟩ := List.forall_mem_cons.1 h
    by_cases hkept : kept i = true
    · rw [List.filter_cons_of_pos hkept, spacesIn_cons, spacesIn_cons, ih hitems]
    · have hnone : i.spaces = 0 := Nat.eq_zero_of_not_pos (mt hi hkept)
      rw [List.filter_cons_of_neg hkept, spacesIn_cons, ih hitems, hnone, Nat.zero_add]

/-- Only texts have spaces. -/
theorem spaces_of_made {i : Instruction Rat} (h : i.Made) :
    i.spaces = (i.text?.map fun content => content.toList.count ' ').getD 0 := by
  obtain ⟨kind, state, fonts, rfl | rfl⟩ := h
  all_goals cases kind
  all_goals simp [Instruction.text?, Instruction.ofKind, Instruction.breakable]

theorem room_filter (padding : Rat) (items : List (Instruction Rat)) :
    padding * (spacesIn (items.filter fun i => 0 < i.state.size) : Rat) =
      (items.map fun i => if 0 < i.state.size then padding * (i.spaces : Rat) else 0).sum := by
  induction items with
  | nil => simp [spacesIn]
  | cons i items ih =>
    rw [List.map_cons, List.sum_cons, ← ih]
    by_cases hsize : 0 < i.state.size
    · rw [List.filter_cons_of_pos (by simpa using hsize), spacesIn_cons, if_pos hsize,
        Nat.cast_add, mul_add]
    · rw [List.filter_cons_of_neg (by simpa using hsize), if_neg hsize, zero_add]

theorem sum_ownDisplacement (fonts : FontService Rat) (padding : Rat)
    {items : List (Instruction Rat)} (h : ∀ i ∈ items, i.Made) :
    (items.map (ownDisplacement fonts padding)).sum = kerned fonts items +
      padding * (spacesIn (items.filter fun i => 0 < i.state.size) : Rat) := by
  unfold kerned
  rw [room_filter, ← List.sum_map_add]
  congr 1
  refine List.map_congr_left fun i hi => ?_
  unfold ownDisplacement
  cases htext : i.text? with
  | some content => rfl
  | none => simp [spaces_of_made (h i hi), htext]

theorem along_eq (padding : Rat) (items : List (Instruction Rat)) :
    along padding items = totalWidth items + padding * (spacesIn items : Rat) := by
  rw [totalWidth_eq_sum]
  unfold along spacesIn
  rw [List.sum_map_add, List.sum_map_mul_left]
  simp [List.map_map, Function.comp_def]

theorem sum_advance (padding : Rat) {items : List (Instruction Rat)} (h : ∀ i ∈ items, i.Made) :
    (items.map (advance padding)).sum = along padding items := by
  unfold along
  congr 1
  refine List.map_congr_left fun i hi => ?_
  obtain ⟨kind, state, fonts, hmade⟩ := h i hi
  have hstate : i.state = state := by
    rcases hmade with rfl | rfl
    all_goals cases kind
    all_goals rfl
  have hby : i.MeasuredBy fonts := ⟨kind, by rwa [hstate]⟩
  exact advance_eq hby padding

/-- A line as lines are made: of instructions that were measured, measured itself, and with a serial
for each style. -/
structure Assembled (line : Line Rat) : Prop where
  made : ∀ i ∈ line.instructions, i.Made
  measured : line = .measured line.instructions line.hardBreak line.pageBreak
  serials : Instruction.ToldApart line.instructions

theorem Assembled.ofInstructions {items : List (Instruction Rat)} (hard : Bool)
    (hmade : ∀ i ∈ items, i.Made) (hserials : Instruction.ToldApart items) :
    Assembled (.ofInstructions items hard) := by
  have hkept : ∀ i ∈ (Line.ofInstructions items hard).instructions, i ∈ items :=
    fun i hi => (trim_sublist items).subset hi
  exact ⟨fun i hi => hmade i (hkept i hi), rfl,
    fun i hi j hj => hserials i (hkept i hi) j (hkept j hj)⟩

theorem Assembled.width_eq {line : Line Rat} (h : Assembled line) :
    line.width = totalWidth line.instructions := by
  rw [h.measured]
  rfl

theorem Assembled.spaces_eq {line : Line Rat} (h : Assembled line) :
    line.spaces = max (spacesIn line.instructions) 1 := by
  rw [h.measured]
  show max (line.instructions.foldl (fun n i => n + i.spaces) 0) 1 = _
  unfold spacesIn
  rw [List.sum_eq_foldl, List.foldl_map]
  rfl

/-- A line has room to hand out. -/
def Stretches (width : Rat) (line : Line Rat) : Prop :=
  line.hardBreak = false ∧ line.width < width ∧ 0 < spacesIn line.instructions

/-- What justification does to a line in a row, drawn from one pen to the next. -/
structure Justified (fonts : FontService Rat) (width : Rat) (line : Line Rat) (row : Row)
    (p q : Pen Rat) : Prop where
  offset : row.offset = 0
  /-- The line takes its widths and the padding of its spaces. -/
  comes : q.x = row.offset + along row.padding line.instructions
  fills : Stretches width line → q.x = width
  plain : ¬ Stretches width line →
    (∀ i ∈ line.instructions, row.padding * (i.spaces : Rat) = 0) ∧ q.x = line.width
  /-- Show arrays displace by the padding of the texts whose size is above zero. -/
  displaces : displaced q.ops = displaced p.ops + kerned fonts line.instructions +
    row.padding * (spacesIn (line.instructions.filter fun i => 0 < i.state.size) : Rat)
  /-- They displace by all of the padding if there is no space of any other size. -/
  displacesAll : (∀ i ∈ line.instructions, 0 < i.spaces → 0 < i.state.size) →
    displaced q.ops = displaced p.ops + kerned fonts line.instructions +
      row.padding * (spacesIn line.instructions : Rat)

/-- Something is shown for every text with a space. -/
def ShowsSpaces (fonts : FontService Rat) : Prop :=
  ∀ font text kerning, ' ' ∈ text.toList → fonts.encode font text kerning ≠ []

theorem showsSpaces_service (catalog : Catalog) :
    ShowsSpaces (catalog.service : FontService Rat) := by
  intro font text kerning _
  show catalog.encode font text kerning ≠ []
  simp [Catalog.encode]

/-- The spaces that the texts of a run count are in the texts. -/
theorem encoded_of_runsFrom {fonts : FontService Rat} (hfonts : ShowsSpaces fonts)
    {items : List (Instruction Rat)} (hmade : ∀ i ∈ items, i.Made) {run : Run Rat}
    (hrun : run ∈ runsFrom none items) :
    ∀ s ∈ run.segments, 0 < s.2 → fonts.encode run.state.font s.1 run.state.kerning ≠ [] := by
  intro s hs hspaces
  have htext : (run.state.serial, s) ∈ (runsFrom none items).flatMap (Run.texts (·.serial)) :=
    List.mem_flatMap.2 ⟨run, hrun, List.mem_map_of_mem hs⟩
  rw [texts_runsFrom (by simp) fun _ _ _ _ hserial => hserial, Option.toList_none,
    List.flatMap_nil, List.nil_append] at htext
  obtain ⟨i, hi, hown⟩ := List.mem_filterMap.1 htext
  obtain ⟨content, hcontent, hboth⟩ := Option.map_eq_some_iff.1 hown
  have hsegment : (content, i.spaces) = s := congrArg Prod.snd hboth
  subst hsegment
  have hcount : i.spaces = content.toList.count ' ' := by
    rw [spaces_of_made (hmade i hi), hcontent]
    rfl
  exact hfonts _ _ _ (List.count_pos_iff.1 (hcount ▸ hspaces))

theorem place_of_justify {common : TextAlign} {line : Line Rat}
    (h : Pen.alignOf common line = .justify) (width : Rat) :
    Pen.placeLine (Pen.alignOf common line) width line =
      (0, if line.hardBreak = false ∧ line.width < width then
        (width - line.width) / (line.spaces : Rat) else 0) := by
  rw [h]
  show (if (!line.hardBreak && decide (0 < width - line.width)) = true then _ else _) = _
  have hroom : (!line.hardBreak && decide (0 < width - line.width)) = true ↔
      line.hardBreak = false ∧ line.width < width := by simp
  by_cases hspread : line.hardBreak = false ∧ line.width < width
  · rw [if_pos (hroom.2 hspread), if_pos hspread]
  · rw [if_neg (mt hroom.1 hspread), if_neg hspread]

section

variable {fonts : FontService Rat} {script left : List (Shown Rat)} {options : DrawOptions Rat}
  {above : List (Line Rat)} {line : Line Rat} {width baseline : Rat} {p q : Pen Rat}

theorem padding_of_stretches (hline : Assembled line)
    (halign : Pen.alignOf options.align line = .justify) (h : Stretches width line) :
    (rowOf options width above line).padding * (spacesIn line.instructions : Rat) =
      width - line.width := by
  obtain ⟨hsoft, hroom, hspaces⟩ := h
  have hpadding : (rowOf options width above line).padding = _ :=
    congrArg Prod.snd (place_of_justify halign width)
  have hshares : line.spaces = spacesIn line.instructions := by
    rw [hline.spaces_eq]
    omega
  have hne : (spacesIn line.instructions : Rat) ≠ 0 := by
    exact_mod_cast Nat.ne_of_gt hspaces
  rw [hpadding]
  dsimp only
  rw [if_pos ⟨hsoft, hroom⟩, hshares, div_mul_cancel₀ _ hne]

/-- Either no room is handed out, or there is no space that it could be given to. -/
theorem padding_of_not_stretches (above : List (Line Rat))
    (halign : Pen.alignOf options.align line = .justify) (h : ¬ Stretches width line) :
    (rowOf options width above line).padding = 0 ∨ spacesIn line.instructions = 0 := by
  have hpadding : (rowOf options width above line).padding = _ :=
    congrArg Prod.snd (place_of_justify halign width)
  by_cases hspread : line.hardBreak = false ∧ line.width < width
  · right
    by_contra hsome
    exact h ⟨hspread.1, hspread.2, Nat.pos_of_ne_zero hsome⟩
  · left
    rw [hpadding]
    exact if_neg hspread

/-- What a line shows is displaced as its texts are. -/
theorem sum_shownOn (above : List (Line Rat)) (hfonts : ShowsSpaces fonts)
    (hline : Assembled line) :
    ((shownOn fonts options.align width line).map Shown.displacement).sum =
      kerned fonts line.instructions + (rowOf options width above line).padding *
        (spacesIn (line.instructions.filter fun i => 0 < i.state.size) : Rat) := by
  have hruns : ((runsFrom none line.instructions).map
      (Run.displacement fonts (rowOf options width above line).padding)).sum =
        (line.instructions.map
          (ownDisplacement fonts (rowOf options width above line).padding)).sum :=
    displacement_runsFrom hline.serials
  rw [← sum_ownDisplacement fonts _ hline.made, ← hruns]
  unfold shownOn
  rw [List.map_flatMap, List.flatMap_def, List.sum_flatten, List.map_map]
  congr 1
  exact List.map_congr_left fun run hrun =>
    displacement_shownOf (encoded_of_runsFrom hfonts hline.made hrun)

theorem justified_drawLine (hfonts : ShowsSpaces fonts) (hline : Assembled line)
    (halign : Pen.alignOf options.align line = .justify)
    (h : p.Follows fonts script (shownOn fonts options.align width line ++ left))
    (hrun : p.run = none)
    (hq : p.drawLine fonts options.align width line baseline = (.ok (), q)) :
    Justified fonts width line (rowOf options width above line) p q := by
  have hoffset : (rowOf options width above line).offset = 0 :=
    congrArg Prod.fst (place_of_justify halign width)
  have hcomes : q.x = (rowOf options width above line).offset +
      along (rowOf options width above line).padding line.instructions := by
    rw [← sum_advance _ hline.made]
    exact Pen.x_drawLine hrun hq
  have htotal : q.x = line.width +
      (rowOf options width above line).padding * (spacesIn line.instructions : Rat) := by
    rw [hcomes, hoffset, zero_add, along_eq, hline.width_eq]
  have hdisplaced : displaced q.ops = displaced p.ops + kerned fonts line.instructions +
      (rowOf options width above line).padding *
        (spacesIn (line.instructions.filter fun i => 0 < i.state.size) : Rat) := by
    rw [Pen.displaced_drawLine h hrun hq, sum_shownOn above hfonts hline, add_assoc]
  refine ⟨hoffset, hcomes, ?_, ?_, hdisplaced, ?_⟩
  · intro hstretches
    rw [htotal, padding_of_stretches hline halign hstretches, add_sub_cancel]
  · intro hstill
    rcases padding_of_not_stretches above halign hstill with hpadding | hspaces
    · rw [htotal, hpadding, zero_mul, add_zero]
      exact ⟨fun i _ => zero_mul _, rfl⟩
    · have hnone : ∀ i ∈ line.instructions, i.spaces = 0 := fun i hi =>
        List.sum_eq_zero_iff.1 hspaces _ (List.mem_map_of_mem hi)
      rw [htotal, hspaces, Nat.cast_zero, mul_zero, add_zero]
      exact ⟨fun i hi => by rw [hnone i hi, Nat.cast_zero, mul_zero], rfl⟩
  · intro hsizes
    rw [hdisplaced, spacesIn_filter fun i hi hspaces => decide_eq_true (hsizes i hi hspaces)]

end

/-- A justified line fills its column from the left edge on if it is soft, has room and holds a
space, and else it is as wide as what it holds.  Its show arrays displace by the padding of its
spaces, but for those of texts whose size is not above zero. -/
theorem justified_line_fills {c : DrawContext Rat} {fonts : FontService Rat} {canvas : Canvas Rat}
    {above : List (Line Rat)} {line : Line Rat} {x y width top : Rat} {p q : Pen Rat}
    (hfonts : ShowsSpaces fonts) (hline : Assembled line)
    (halign : Pen.alignOf c.options.align line = .justify)
    (habove : (c.start canvas x y).drawLines fonts c.options width 0 above = (.ok top, p))
    (hdrawn : p.drawLine fonts c.options.align width line (top - line.height - line.descent) =
      (.ok (), q)) :
    Justified fonts width line (rowOf c.options width above line) p q := by
  have hstart := DrawContext.follows_start (c := c) fonts canvas x y
    (above.flatMap (shownOn fonts c.options.align width) ++
      (shownOn fonts c.options.align width line ++ []))
  obtain ⟨more, hmore, hdone⟩ := hstart.drawLines rfl (fun _ _ i _ => definite_rat i.state) habove
  rw [hdone top rfl] at hmore
  exact justified_drawLine hfonts hline halign hmore (Pen.run_drawLines rfl habove) hdrawn

/-! ## A line of two sizes, and one below zero -/

namespace Sample

def sized (serial : Nat) (size : Rat) : StyleState Rat := { Sample.state with serial, size }

/-- Texts under styles of given serials and sizes on a soft line. -/
def sizedLine (texts : List (String × Nat × Rat)) : Line Rat :=
  .ofInstructions (texts.map fun t => .ofText t.1 (sized t.2.1 t.2.2) Sample.fonts) false

/-- Fifty-four points with two spaces, one of ten points and one of twenty. -/
def twoSizes : Line Rat :=
  sizedLine [("aa", 0, 10), (" ", 0, 10), ("b", 1, 20), (" ", 1, 20), ("c", 1, 20)]

def belowZero : Line Rat := sizedLine [("a", 0, -10), (" ", 0, -10), ("b", 0, -10)]

theorem assembled_sizedLine {texts : List (String × Nat × Rat)}
    (h : ∀ t ∈ texts, ∀ u ∈ texts, t.2.1 = u.2.1 → t.2.2 = u.2.2) :
    Assembled (sizedLine texts) := by
  refine .ofInstructions false ?_ ?_
  · intro i hi
    obtain ⟨t, -, rfl⟩ := List.mem_map.1 hi
    exact ⟨.text t.1, sized t.2.1 t.2.2, Sample.fonts, Or.inl rfl⟩
  · intro i hi j hj hserial
    obtain ⟨t, ht, rfl⟩ := List.mem_map.1 hi
    obtain ⟨u, hu, rfl⟩ := List.mem_map.1 hj
    have hsame : t.2.1 = u.2.1 := hserial
    show sized t.2.1 t.2.2 = sized u.2.1 u.2.2
    rw [hsame, h t ht u hu hsame]

/-- The pen behind a line at the top of a column of sixty points. -/
def behind (line : Line Rat) : Pen Rat :=
  ((justifying.start .standard 50 700).drawLine Sample.fonts .justify 60 line
    (0 - line.height - line.descent)).2

end Sample

/-- The two spaces take three points each, which are not the same displacement. -/
theorem justified_line_fills_sizes :
    Justified Catalog.standard.service 60 Sample.twoSizes
        (rowOf Sample.justifying.options 60 [] Sample.twoSizes)
        (Sample.justifying.start .standard 50 700) (Sample.behind Sample.twoSizes) ∧
      (Sample.behind Sample.twoSizes).x = 60 ∧
      displaced (Sample.behind Sample.twoSizes).ops = 6 := by
  have hline : Assembled Sample.twoSizes := Sample.assembled_sizedLine (by decide +kernel)
  have hresult : ((Sample.justifying.start .standard 50 700).drawLine Sample.fonts .justify 60
      Sample.twoSizes (0 - Sample.twoSizes.height - Sample.twoSizes.descent)).1.toOption =
        some () := by decide +kernel
  have hdrawn : (Sample.justifying.start .standard 50 700).drawLine Sample.fonts
      Sample.justifying.options.align 60 Sample.twoSizes
        (0 - Sample.twoSizes.height - Sample.twoSizes.descent) =
          (.ok (), Sample.behind Sample.twoSizes) := Prod.ext (ok_of_toOption hresult) rfl
  have habove : (Sample.justifying.start .standard 50 700).drawLines Sample.fonts
      Sample.justifying.options 60 0 [] = (.ok 0, Sample.justifying.start .standard 50 700) := rfl
  have hjustified := justified_line_fills (showsSpaces_service Catalog.standard) hline
    (by decide +kernel) habove hdrawn
  exact ⟨hjustified, by decide +kernel, by decide +kernel⟩

/-- Text below zero is given the room of its spaces, but no displacement. -/
theorem below_zero_not_displaced :
    Assembled Sample.belowZero ∧
    Pen.alignOf .justify Sample.belowZero = .justify ∧ Stretches 60 Sample.belowZero ∧
      ((Sample.justifying.start .standard 50 700).drawLine Sample.fonts .justify 60
        Sample.belowZero (0 - Sample.belowZero.height - Sample.belowZero.descent)).1.toOption =
          some () ∧
      (Sample.behind Sample.belowZero).x = 60 ∧
      (rowOf Sample.justifying.options 60 [] Sample.belowZero).padding *
        (spacesIn Sample.belowZero.instructions : Rat) = 78 ∧
      kerned Sample.fonts Sample.belowZero.instructions = 0 ∧
      displaced (Sample.behind Sample.belowZero).ops -
        displaced (Sample.justifying.start .standard 50 700).ops = 0 := by
  unfold Stretches
  exact ⟨Sample.assembled_sizedLine (by decide +kernel), by decide +kernel⟩

end Drawing
end Galley
