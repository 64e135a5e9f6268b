import Galley.Proofs.Decimal.Rounding
import Galley.Proofs.Drawing.Places
import Galley.Proofs.Pdf.References

/-
Where the written moves of a text object lead.

Moves are relative: each starts a line of text at an offset from the start of the last one.  The pen
remembers the offsets in full, and the page gets them with two decimals.  Taken in full the moves up
to a line lead to the place of the line (`Pen.Landed`); as they are written, they lead away from it
by the sum of what each is off by (`DrawContext.written_start_within_iff`).  Within a line the moves
go sideways, and zero is written in full.  So how far down a line comes out is settled by heights and
spacing alone (`baselineSteps`).
-/

namespace Galley
namespace Drawing

open Font Paragraph Pdf Style

/-! ## Moves and how they are written -/

/-- The displacements of moves, in their order. -/
def moves (ops : List (TextOp Rat)) : List (Rat × Rat) :=
  ops.filterMap fun op =>
    match op with
    | .move dx dy => some (dx, dy)
    | _ => none

@[simp] theorem moves_append (ops more : List (TextOp Rat)) :
    moves (ops ++ more) = moves ops ++ moves more := List.filterMap_append

/-- The displacement that a line of a text object stands for, if it is that of a move. -/
def readMove (text : String) : Option (Rat × Rat) :=
  if "Td\n".toList <:+ text.toList then
    match text.toList.splitOn ' ' with
    | dx :: dy :: _ => some (Decimal.valueOf dx, Decimal.valueOf dy)
    | _ => none
  else none

/-- The displacements of moves as they are written. -/
def writtenMoves (ops : List (TextOp Rat)) : List (Rat × Rat) :=
  (ops.map TextOp.write).filterMap readMove

/-- A text is read as a move by its last word. -/
theorem readMove_append (front : String) {back : String} (hlength : 3 ≤ back.toList.length)
    (hback : ¬ "Td\n".toList <:+ back.toList) : readMove (front ++ back) = none := by
  unfold readMove
  rw [if_neg]
  rw [String.toList_append]
  intro hmove
  exact hback (List.suffix_of_suffix_length_le hmove (List.suffix_append _ _) hlength)

theorem not_mem_fixed (places : Nat) (x : Rat) : ' ' ∉ (Scalar.fixed places x).toList := by
  intro hmem
  have hword := plainWord_fixedQuotient places (decide (x < 0)) x.num.natAbs x.den
  have hspace := List.all_eq_true.1 hword.plain ' ' hmem
  exact absurd hspace (by decide)

theorem readMove_move (dx dy : Rat) :
    readMove (TextOp.move dx dy).write =
      some (Decimal.rounded 2 dx, Decimal.rounded 2 dy) := by
  have htext : (TextOp.move dx dy).write.toList = [' '].intercalate
      [(Scalar.fixed 2 dx).toList, (Scalar.fixed 2 dy).toList, "Td\n".toList] := by
    simp [TextOp.write, spacedNumbers, List.intercalate]
  have hwords : (TextOp.move dx dy).write.toList.splitOn ' ' =
      [(Scalar.fixed 2 dx).toList, (Scalar.fixed 2 dy).toList, "Td\n".toList] := by
    rw [htext]
    refine List.splitOn_intercalate _ ?_ (by simp)
    simp only [List.forall_mem_cons]
    exact ⟨not_mem_fixed 2 dx, not_mem_fixed 2 dy, by decide, by simp⟩
  unfold readMove
  rw [if_pos, hwords]
  · dsimp only
    rw [Decimal.valueOf_fixed, Decimal.valueOf_fixed]
  · show "Td\n".toList <:+ (spacedNumbers 2 [dx, dy] ++ "Td\n").toList
    rw [String.toList_append]
    exact List.suffix_append _ _

theorem readMove_write (op : TextOp Rat) :
    readMove op.write = (match op with
      | .move dx dy => some (Decimal.rounded 2 dx, Decimal.rounded 2 dy)
      | _ => none) := by
  cases op with
  | move dx dy => exact readMove_move dx dy
  | matrix a b c d e f => exact readMove_append _ (by decide) (by decide)
  | font resource size => exact readMove_append _ (by decide) (by decide)
  | fillColor color => exact readMove_append _ (by decide) (by decide)
  | rise amount => exact readMove_append _ (by decide) (by decide)
  | renderMode mode => exact readMove_append _ (by decide) (by decide)
  | glyphs items =>
    rcases items with _ | ⟨data | amount, _ | ⟨item, items⟩⟩
    · exact (by decide : readMove "" = none)
    all_goals exact readMove_append _ (by decide) (by decide)

theorem writtenMoves_eq (ops : List (TextOp Rat)) :
    writtenMoves ops =
      (moves ops).map fun m => (Decimal.rounded 2 m.1, Decimal.rounded 2 m.2) := by
  unfold writtenMoves moves
  rw [List.filterMap_map, List.map_filterMap]
  refine List.filterMap_congr fun op _ => ?_
  rw [Function.comp_apply, readMove_write]
  cases op <;> rfl

/-! ## Along a line -/

namespace Pen

/-- The moves of a pen along a line go sideways, from the start of one line of text to that of the
next. -/
structure Slides (p q : Pen Rat) : Prop where
  ops : ∃ more, q.ops = p.ops ++ more ∧ (∀ m ∈ moves more, m.2 = 0) ∧
    ((moves more).map Prod.fst).sum = q.lastX - p.lastX
  lastY : q.lastY = p.lastY

variable {fonts : FontService Rat} {p q r : Pen Rat}

theorem Slides.still (hops : q.ops = p.ops) (hx : q.lastX = p.lastX) (hy : q.lastY = p.lastY) :
    Slides p q where
  ops := ⟨[], by rw [hops, List.append_nil], by simp [moves], by rw [hx, sub_self]; rfl⟩
  lastY := hy

theorem Slides.refl (p : Pen Rat) : Slides p p := .still rfl rfl rfl

theorem Slides.trans (h : Slides p q) (k : Slides q r) : Slides p r where
  ops := by
    obtain ⟨first, hfirst, hlevel, hsum⟩ := h.ops
    obtain ⟨second, hsecond, hlevel', hsum'⟩ := k.ops
    refine ⟨first ++ second, by rw [hsecond, hfirst, List.append_assoc], ?_, ?_⟩
    · rw [moves_append]
      exact List.forall_mem_append.2 ⟨hlevel, hlevel'⟩
    · rw [moves_append, List.map_append, List.sum_append, hsum, hsum']
      ring
  lastY := k.lastY.trans h.lastY

theorem Slides.emit (p : Pen Rat) {op : TextOp Rat} (hop : moves [op] = []) :
    Slides p (p.emit op) where
  ops := ⟨[op], rfl, by rw [hop]; simp, by rw [hop]; exact (sub_self p.lastX).symm⟩
  lastY := rfl

theorem slides_catchUp (p : Pen Rat) : Slides p p.catchUp := by
  unfold catchUp
  split
  · refine ⟨⟨[.move (p.x - p.lastX) 0], rfl, ?_, ?_⟩, rfl⟩
    · simp [moves]
    · simp [moves]
  · exact .refl p

theorem slides_writeUnless (p : Pen Rat) (same : Bool) {op : TextOp Rat} (cookies : Cookies Rat)
    (hop : moves [op] = []) : Slides p (p.writeUnless same op cookies) := by
  cases same with
  | true => exact .refl p
  | false => exact (Slides.emit p hop).trans (.still rfl rfl rfl)

theorem slides_paint (p : Pen Rat) (state : StyleState Rat) : Slides p (p.paint state) := by
  have hcolor : Slides p.catchUp (p.catchUp.setColor state.color) := by
    rw [setColor_eq]
    exact slides_writeUnless _ _ _ rfl
  have hrise : Slides (p.catchUp.setColor state.color) (p.paint state) := by
    unfold paint
    rw [setRise_eq]
    exact slides_writeUnless _ _ _ rfl
  exact ((slides_catchUp p).trans hcolor).trans hrise

theorem slides_showGroup (fonts : FontService Rat) (run : Run Rat) (p : Pen Rat)
    (group : Group Rat) : Slides p (p.showGroup fonts run group) := by
  rw [showGroup_eq]
  have hentered : Slides p (p.enterFont fonts { state := run.state, group }) := by
    have hcanvas : Slides p
        { p with canvas := (fontOf fonts p.canvas { state := run.state, group }).2 } :=
      .still rfl rfl rfl
    unfold enterFont
    rw [setFont_eq]
    exact hcanvas.trans (slides_writeUnless _ _ _ rfl)
  have hnoted (q : Pen Rat) (name : String) : Slides q (q.noteGlyphs fonts run name) := by
    unfold noteGlyphs
    split
    · exact .still rfl rfl rfl
    · exact .refl q
  exact (hentered.trans (hnoted _ _)).trans (Slides.emit _ rfl)

theorem slides_showGroups (fonts : FontService Rat) (run : Run Rat) (groups : List (Group Rat))
    (p : Pen Rat) : Slides p (groups.foldl (showGroup fonts run) p) := by
  induction groups generalizing p with
  | nil => exact .refl p
  | cons group groups ih => exact (slides_showGroup fonts run p group).trans (ih _)

theorem slides_flush (fonts : FontService Rat) (p : Pen Rat) : Slides p (p.flush fonts) := by
  cases hrun : p.run with
  | none =>
    rw [flush_none hrun]
    exact .refl p
  | some run =>
    have hstart : Slides p { p with run := none } := .still rfl rfl rfl
    have hshown : Slides p (showRun fonts { p with run := none } run) :=
      (hstart.trans (slides_paint _ run.state)).trans (slides_showGroups fonts run _ _)
    have hdecorate (q : Pen Rat) : Slides q (q.decorate run) := by
      unfold decorate
      split
      · exact .still rfl rfl rfl
      · exact .refl q
    rw [flush_some hrun]
    exact (hshown.trans (hdecorate _)).trans (.still rfl rfl rfl)

theorem slides_annotateAll (p : Pen Rat) (links : List (Option (OpenLink Rat))) :
    Slides p (p.annotateAll links) := by
  obtain ⟨canvas, hcanvas⟩ := annotateAll_cases p links
  rw [hcanvas]
  exact .still rfl rfl rfl

theorem Step.slides {i : Instruction Rat} {r : Except Error Unit} (h : Step fonts p i r q) :
    Slides p q := by
  have hflush := slides_flush fonts p
  cases h with
  | text hkind =>
    unfold addText
    dsimp only
    split
    · split
      · exact .still rfl rfl rfl
      · exact hflush.trans (.still rfl rfl rfl)
    · exact hflush.trans (.still rfl rfl rfl)
  | gap | linkStart => exact hflush.trans (.still rfl rfl rfl)
  | badAnchor | noLink => exact hflush
  | linkEnd => exact (hflush.trans (slides_annotateAll _ _)).trans (.still rfl rfl rfl)
  | plain => exact .refl _

theorem slides_along (fonts : FontService Rat) : LineRelation fonts Slides where
  refl := .refl
  trans := .trans
  drawInstruction h := (step_of_drawInstruction h).slides
  flush := slides_flush fonts
  annotateAll := slides_annotateAll

end Pen

/-! ## From line to line -/

/-- How far above the baseline of the line before it a line has its own, or above the top of the
block. -/
def baselineStep (options : DrawOptions Rat) (previous : Option (Line Rat)) (line : Line Rat) :
    Rat :=
  match previous with
  | none => -line.height - line.descent
  | some previous => previous.descent - options.spacing - line.height - line.descent

def baselineSteps (options : DrawOptions Rat) : Option (Line Rat) → List (Line Rat) → List Rat
  | _, [] => []
  | previous, line :: lines =>
    baselineStep options previous line :: baselineSteps options (some line) lines

theorem baselineSteps_concat (options : DrawOptions Rat) (previous : Option (Line Rat))
    (lines : List (Line Rat)) (line : Line Rat) :
    baselineSteps options previous (lines ++ [line]) = baselineSteps options previous lines ++
      [baselineStep options (lines.getLast?.or previous) line] := by
  induction lines generalizing previous with
  | nil => rfl
  | cons first lines ih =>
    rw [List.cons_append, baselineSteps, ih, baselineSteps, List.cons_append]
    cases lines with
    | nil => rfl
    | cons second lines => rfl

theorem length_baselineSteps (options : DrawOptions Rat) (previous : Option (Line Rat))
    (lines : List (Line Rat)) : (baselineSteps options previous lines).length = lines.length := by
  induction lines generalizing previous with
  | nil => rfl
  | cons line lines ih => rw [baselineSteps, List.length_cons, List.length_cons, ih]

/-- The baseline of the last of the lines `above`. -/
def lastBaseline (options : DrawOptions Rat) (above : List (Line Rat)) : Rat :=
  match above.getLast? with
  | none => 0
  | some line => topOf options above + options.spacing - line.descent

theorem lastBaseline_concat (options : DrawOptions Rat) (above : List (Line Rat))
    (line : Line Rat) :
    lastBaseline options (above ++ [line]) = topOf options above - line.height - line.descent := by
  unfold lastBaseline
  rw [List.getLast?_concat, topOf_concat]
  ring

theorem lastBaseline_step (options : DrawOptions Rat) (above : List (Line Rat))
    (line : Line Rat) :
    lastBaseline options (above ++ [line]) - lastBaseline options above =
      baselineStep options (above.getLast?.or none) line := by
  rw [lastBaseline_concat]
  unfold lastBaseline baselineStep
  rcases List.eq_nil_or_concat' above with rfl | ⟨front, previous, rfl⟩
  · show -([] : List Rat).sum - line.height - line.descent - 0 = -line.height - line.descent
    rw [List.sum_nil]
    ring
  · rw [List.getLast?_concat]
    dsimp only [Option.some_or]
    ring

theorem sum_baselineSteps (options : DrawOptions Rat) (above : List (Line Rat)) :
    (baselineSteps options none above).sum = lastBaseline options above := by
  induction above using List.reverseRecOn with
  | nil => rfl
  | append_singleton above line ih =>
    rw [baselineSteps_concat, List.sum_append, List.sum_singleton, ih, ← lastBaseline_step]
    ring

namespace Pen

/-- The pen is on the last of the lines `above` of a block with its corner at `x` and `y`, and its
moves have led there: sideways to where the line of text starts, and down by the steps between the
baselines. -/
structure Landed (options : DrawOptions Rat) (x y : Rat) (above : List (Line Rat)) (p : Pen Rat) :
    Prop where
  across : ((moves p.ops).map Prod.fst).sum = x + p.lastX
  down : ∀ f : Rat → Rat, f 0 = 0 → ((moves p.ops).map fun m => f m.2).sum =
    f y + ((baselineSteps options none above).map f).sum
  lastY : p.lastY = lastBaseline options above

variable {fonts : FontService Rat} {options : DrawOptions Rat} {x y width : Rat}
  {above lines : List (Line Rat)} {line : Line Rat} {p q : Pen Rat}

theorem Landed.slide (h : p.Landed options x y above) (hslides : Slides p q) :
    q.Landed options x y above := by
  obtain ⟨more, hops, hlevel, hsum⟩ := hslides.ops
  refine ⟨?_, fun f hf => ?_, hslides.lastY.trans h.lastY⟩
  · rw [hops, moves_append, List.map_append, List.sum_append, h.across, hsum]
    ring
  · have hzero : ((moves more).map fun m => f m.2).sum = 0 := by
      refine List.sum_eq_zero fun z hz => ?_
      obtain ⟨m, hm, rfl⟩ := List.mem_map.1 hz
      rw [hlevel m hm, hf]
    rw [hops, moves_append, List.map_append, List.sum_append, h.down f hf, hzero, add_zero]

theorem Landed.startLine (h : p.Landed options x y above) (line : Line Rat)
    (offset padding : Rat) :
    (p.startLine line (topOf options above - line.height - line.descent) offset
      padding).Landed options x y (above ++ [line]) := by
  have hmoves : moves (p.startLine line (topOf options above - line.height - line.descent) offset
      padding).ops = moves p.ops ++ [(offset - p.lastX,
        topOf options above - line.height - line.descent - p.lastY)] := moves_append _ _
  refine ⟨?_, fun f hf => ?_, (lastBaseline_concat options above line).symm⟩
  · rw [hmoves, List.map_append, List.sum_append, h.across, List.map_singleton,
      List.sum_singleton]
    show x + p.lastX + (offset - p.lastX) = x + offset
    ring
  · rw [hmoves, List.map_append, List.sum_append, h.down f hf, List.map_singleton,
      List.sum_singleton, baselineSteps_concat, List.map_append, List.sum_append,
      List.map_singleton, List.sum_singleton, ← lastBaseline_step, ← h.lastY,
      lastBaseline_concat]
    ring

theorem Landed.drawLines {ended : Rat} (h : p.Landed options x y above)
    (hq : p.drawLines fonts options width (topOf options above) lines = (.ok ended, q)) :
    ended = topOf options (above ++ lines) ∧ q.Landed options x y (above ++ lines) := by
  induction lines generalizing p above with
  | nil =>
    cases hq
    rw [List.append_nil]
    exact ⟨rfl, h⟩
  | cons line lines ih =>
    rw [Pen.drawLines, ← topOf_concat] at hq
    split at hq
    · cases hq
    · next drawn hdrawn =>
      have hline := (h.startLine line _ _).slide ((slides_along fonts).drawLine hdrawn)
      have hrest := ih hline hq
      rwa [List.append_assoc] at hrest

/-- Lines that are drawn are drawn one part after the other. -/
theorem exists_of_drawLines_append {rest : List (Line Rat)} {top ended : Rat}
    (hq : p.drawLines fonts options width top (above ++ rest) = (.ok ended, q)) :
    ∃ middle r, p.drawLines fonts options width top above = (.ok middle, r) ∧
      r.drawLines fonts options width middle rest = (.ok ended, q) := by
  induction above generalizing p top with
  | nil => exact ⟨top, p, rfl, hq⟩
  | cons line above ih =>
    rw [List.cons_append, Pen.drawLines] at hq
    rw [Pen.drawLines]
    split at hq
    · cases hq
    · exact ih hq

/-- What is written stays. -/
theorem written_along (fonts : FontService Rat) :
    LineRelation fonts fun p q => p.ops <+: q.ops := by
  have hslides {p q : Pen Rat} (h : Slides p q) : p.ops <+: q.ops := by
    obtain ⟨more, hops, -, -⟩ := h.ops
    exact ⟨more, hops.symm⟩
  have hline := slides_along fonts
  exact
    { refl := fun _ => List.prefix_rfl
      trans := List.IsPrefix.trans
      drawInstruction := fun h => hslides (hline.drawInstruction h)
      flush := fun p => hslides (hline.flush p)
      annotateAll := fun p links => hslides (hline.annotateAll p links) }

theorem prefix_drawLines {top : Rat} {r : Except Error Rat}
    (hq : p.drawLines fonts options width top lines = (r, q)) : p.ops <+: q.ops :=
  (written_along fonts).drawLines (fun p _ _ _ _ => List.prefix_append p.ops _) hq

end Pen

/-! ## Where lines start on the page -/

/-- Where the moves of a text object lead as they are written. -/
def writtenPlace (ops : List (TextOp Rat)) : Rat × Rat :=
  (((writtenMoves ops).map Prod.fst).sum, ((writtenMoves ops).map Prod.snd).sum)

/-- Where the line below the lines `above` starts in a block with its corner at `x` and `y`. -/
def startOfLine (options : DrawOptions Rat) (x y width : Rat) (above : List (Line Rat))
    (line : Line Rat) : Rat × Rat :=
  (x + (rowOf options width above line).offset, y + (rowOf options width above line).y)

/-- In each direction there is a hundredth between two places, or less. -/
def Close (a b : Rat × Rat) : Prop := |a.1 - b.1| ≤ 1 / 100 ∧ |a.2 - b.2| ≤ 1 / 100

theorem sum_rounded (xs : List Rat) :
    (xs.map (Decimal.rounded 2)).sum = xs.sum + (xs.map Decimal.roundingError).sum := by
  induction xs with
  | nil => exact (add_zero _).symm
  | cons x xs ih =>
    rw [List.map_cons, List.sum_cons, ih, List.map_cons, List.sum_cons, List.sum_cons,
      Decimal.roundingError]
    ring

theorem abs_sum_roundingError_le (xs : List Rat) :
    |(xs.map Decimal.roundingError).sum| ≤ (xs.length : Rat) / 200 := by
  induction xs with
  | nil => simp
  | cons x xs ih =>
    rw [List.map_cons, List.sum_cons, List.length_cons, Nat.cast_add_one]
    calc _ ≤ |Decimal.roundingError x| + |(xs.map Decimal.roundingError).sum| := abs_add_le _ _
      _ ≤ 1 / 200 + (xs.length : Rat) / 200 := add_le_add (Decimal.abs_roundingError_le x) ih
      _ = ((xs.length : Rat) + 1) / 200 := by ring

variable {options : DrawOptions Rat} {x y width : Rat} {above : List (Line Rat)} {line : Line Rat}
  {p : Pen Rat}

/-- What is written leads away from the place of a line by what the moves are off by. -/
theorem Pen.Landed.writtenPlace (h : p.Landed options x y (above ++ [line]))
    (hx : p.lastX = (rowOf options width above line).offset) :
    writtenPlace p.ops =
      ((startOfLine options x y width above line).1 +
          ((moves p.ops).map fun m => Decimal.roundingError m.1).sum,
        (startOfLine options x y width above line).2 + ((y :: baselineSteps options none
          (above ++ [line])).map Decimal.roundingError).sum) := by
  have hy : (rowOf options width above line).y = (baselineSteps options none (above ++ [line])).sum :=
    by rw [sum_baselineSteps, lastBaseline_concat]; rfl
  have hrounded := h.down (Decimal.rounded 2) (Decimal.rounded_zero 2)
  unfold Drawing.writtenPlace startOfLine
  rw [writtenMoves_eq, List.map_map, List.map_map]
  refine Prod.ext ?_ ?_
  · have hsum := sum_rounded ((moves p.ops).map Prod.fst)
    rw [List.map_map, List.map_map, h.across, hx] at hsum
    exact hsum
  · have hsum := sum_rounded (y :: baselineSteps options none (above ++ [line]))
    rw [List.map_cons, List.sum_cons, List.sum_cons, ← hy, ← hrounded] at hsum
    exact hsum

namespace DrawContext

variable {c : DrawContext Rat} {fonts : FontService Rat} {canvas : Canvas Rat}
  {below lines : List (Line Rat)} {used : Rat}

theorem landed_start (hrotation : c.options.rotation = none) (canvas : Canvas Rat) (x y : Rat) :
    (c.start canvas x y).Landed c.options x y [] := by
  have hmoves : moves (c.start canvas x y).ops = [(x, y)] := by
    unfold start
    rw [hrotation]
    cases c.options.renderMode with
    | none => rfl
    | some mode => rfl
  refine ⟨?_, fun f _ => ?_, rfl⟩
  · rw [hmoves]
    rfl
  · rw [hmoves]
    rfl

/-- The operators of a block begin with those of the lines above a line, and then the line has its
first move. -/
theorem textObject_append (hrotation : c.options.rotation = none)
    (hdraw : (c.draw fonts canvas (above ++ line :: below) x y width).1 = .ok used) :
    ∃ (p : Pen Rat) (rest : List (TextOp Rat)), p.Landed c.options x y (above ++ [line]) ∧
      p.lastX = (rowOf c.options width above line).offset ∧
      (∃ dx dy, p.ops = c.textObject fonts canvas above x y width ++ [.move dx dy]) ∧
      c.textObject fonts canvas (above ++ line :: below) x y width = p.ops ++ rest := by
  have hne : above ++ line :: below ≠ [] := by simp
  obtain ⟨top, q, hq, -⟩ := result_draw hne hdraw
  obtain ⟨middle, r, habove, hrest⟩ := Pen.exists_of_drawLines_append hq
  have htop : topOf c.options [] = 0 := neg_zero
  rw [← htop] at habove
  obtain ⟨rfl, hlanded⟩ := (landed_start hrotation canvas x y).drawLines habove
  rw [List.nil_append] at hlanded hrest
  have hobject : c.textObject fonts canvas above x y width = r.ops := by
    unfold textObject
    rw [htop] at habove
    rw [habove]
  rw [Pen.drawLines] at hrest
  split at hrest
  · cases hrest
  · next drawn hline =>
    obtain ⟨more, hmore, -, -⟩ := ((Pen.slides_along fonts).drawLine hline).ops
    obtain ⟨last, hlast⟩ := Pen.prefix_drawLines hrest
    refine ⟨_, more ++ last, hlanded.startLine line (rowOf c.options width above line).offset
      (rowOf c.options width above line).padding, rfl, ⟨_, _, by rw [hobject]; rfl⟩, ?_⟩
    unfold textObject
    rw [hq, ← hlast, hmore, List.append_assoc]
    rfl

/-- In a block that is not rotated, the moves up to a line lead to within a hundredth of where the
line starts exactly if what they are off by adds up to a hundredth at most: sideways over all the
moves so far, and down over the corner of the block and the steps between baselines.  Each is off by
half a hundredth at most. -/
theorem written_start_close_iff (hrotation : c.options.rotation = none)
    (hdraw : (c.draw fonts canvas lines x y width).1 = .ok used)
    (hlines : lines = above ++ line :: below) :
    ∃ upTo dx dy rest, upTo = c.textObject fonts canvas above x y width ++ [.move dx dy] ∧
      c.textObject fonts canvas lines x y width = upTo ++ rest ∧
      (Close (writtenPlace upTo) (startOfLine c.options x y width above line) ↔
        |((moves upTo).map fun m => Decimal.roundingError m.1).sum| ≤ 1 / 100 ∧
        |((y :: baselineSteps c.options none (above ++ [line])).map
          Decimal.roundingError).sum| ≤ 1 / 100) ∧
      |(writtenPlace upTo).1 - (startOfLine c.options x y width above line).1| ≤
        ((moves upTo).length : Rat) / 200 ∧
      |(writtenPlace upTo).2 - (startOfLine c.options x y width above line).2| ≤
        ((above.length + 2 : Nat) : Rat) / 200 := by
  subst hlines
  obtain ⟨p, rest, hlanded, hx, ⟨dx, dy, hops⟩, hobject⟩ := textObject_append hrotation hdraw
  have hplace := hlanded.writtenPlace hx
  refine ⟨p.ops, dx, dy, rest, hops, hobject, ?_⟩
  unfold Close
  rw [hplace]
  dsimp only
  rw [add_sub_cancel_left, add_sub_cancel_left]
  refine ⟨Iff.rfl, ?_, ?_⟩
  · have hbound := abs_sum_roundingError_le ((moves p.ops).map Prod.fst)
    rwa [List.map_map, List.length_map] at hbound
  · have hbound := abs_sum_roundingError_le (y :: baselineSteps c.options none (above ++ [line]))
    rwa [List.length_cons, length_baselineSteps, List.length_append] at hbound

end DrawContext

/-! ## Five lines of 10.8 points -/

namespace Sample

def small : StyleState Rat :=
  .root Paragraph.Sample.fonts { RootStyle.standard with family := "Courier", size := 54 / 5 }

def smallLine : Line Rat := .ofInstructions [.ofText "a" small Paragraph.Sample.fonts] true

def fourLines : List (Line Rat) := List.replicate 4 smallLine

end Sample

namespace DrawContext

theorem drawn_fiveLines :
    ∃ used, (Sample.context.draw Paragraph.Sample.fonts .standard
      (Sample.fourLines ++ [Sample.smallLine]) 50 700 100).1 = .ok used := by
  have hdrawn : (Sample.context.draw Paragraph.Sample.fonts .standard
      (Sample.fourLines ++ [Sample.smallLine]) 50 700 100).1.toOption.isSome = true := by
    decide +kernel
  obtain ⟨used, hused⟩ := Option.isSome_iff_exists.1 hdrawn
  exact ⟨used, ok_of_toOption hused⟩

/-- Two moves lead to the first line, and so it is close to where it starts. -/
theorem written_start_close_first :
    ∃ used, (Sample.context.draw Paragraph.Sample.fonts .standard
        (Sample.fourLines ++ [Sample.smallLine]) 50 700 100).1 = .ok used ∧
      Sample.context.options.rotation = none ∧
      Sample.fourLines ++ [Sample.smallLine] = [] ++ Sample.smallLine :: Sample.fourLines ∧
      ∃ upTo dx dy rest,
        upTo = Sample.context.textObject Paragraph.Sample.fonts .standard [] 50 700 100 ++
          [.move dx dy] ∧
        Sample.context.textObject Paragraph.Sample.fonts .standard
          (Sample.fourLines ++ [Sample.smallLine]) 50 700 100 = upTo ++ rest ∧
        Close (writtenPlace upTo)
          (startOfLine Sample.context.options 50 700 100 [] Sample.smallLine) := by
  obtain ⟨used, hused⟩ := drawn_fiveLines
  have hlines : Sample.fourLines ++ [Sample.smallLine] =
      [] ++ Sample.smallLine :: Sample.fourLines := rfl
  obtain ⟨upTo, dx, dy, rest, hupTo, hobject, -, hacross, hdown⟩ :=
    written_start_close_iff rfl hused hlines
  refine ⟨used, hused, rfl, hlines, upTo, dx, dy, rest, hupTo, hobject, ?_, ?_⟩
  · have htwo : (moves upTo).length = 2 := by
      rw [hupTo]
      rfl
    rw [htwo] at hacross
    exact hacross.trans (by norm_num)
  · exact hdown.trans (by norm_num)

/-- The fifth of five lines is written more than a hundredth above where it starts. -/
theorem fifth_line_not_close :
    ∃ used, (Sample.context.draw Paragraph.Sample.fonts .standard
        (Sample.fourLines ++ [Sample.smallLine]) 50 700 100).1 = .ok used ∧
      Sample.context.options.rotation = none ∧
      ∃ upTo dx dy rest,
        upTo = Sample.context.textObject Paragraph.Sample.fonts .standard Sample.fourLines 50 700
          100 ++ [.move dx dy] ∧
        Sample.context.textObject Paragraph.Sample.fonts .standard
          (Sample.fourLines ++ [Sample.smallLine]) 50 700 100 = upTo ++ rest ∧
        (writtenPlace upTo).2 - (startOfLine Sample.context.options 50 700 100 Sample.fourLines
          Sample.smallLine).2 = 9 / 625 ∧
        ¬ Close (writtenPlace upTo) (startOfLine Sample.context.options 50 700 100
          Sample.fourLines Sample.smallLine) := by
  obtain ⟨used, hused⟩ := drawn_fiveLines
  obtain ⟨p, rest, hlanded, hx, ⟨dx, dy, hops⟩, hobject⟩ := textObject_append rfl hused
  have hdown : ((700 :: baselineSteps Sample.context.options none
      (Sample.fourLines ++ [Sample.smallLine])).map Decimal.roundingError).sum = 9 / 625 := by
    decide +kernel
  have hdrift : (writtenPlace p.ops).2 - (startOfLine Sample.context.options 50 700 100
      Sample.fourLines Sample.smallLine).2 = 9 / 625 := by
    rw [hlanded.writtenPlace hx, ← hdown]
    exact add_sub_cancel_left _ _
  refine ⟨used, hused, rfl, p.ops, dx, dy, rest, hops, hobject, hdrift, ?_⟩
  rintro ⟨-, hclose⟩
  rw [hdrift] at hclose
  revert hclose
  norm_num

end DrawContext

end Drawing
end Galley
