import Galley.Proofs.Drawing.Places
import Galley.Proofs.Paragraph.Measured

/-
Glyphs are put where layout has put them.

A pen on a line has come as far as the widths and the room of spaces in front of it
(`Pen.On`), and has shown its runs in their places so far (`Pen.Shows`).  Both are kept by each
instruction, so that a viewer who goes through the operators of a block meets each run in its place
(`draw_places_runs`).  Only the gap of a strut or an indent may go unwritten, as long as it is no more
than epsilon, and each of them can do so once.
-/

namespace Galley
namespace Drawing

open Font Paragraph Pdf Style

/-! ## Room along a line -/

section

variable {fonts : FontService Rat} {before : List (Instruction Rat)} {i : Instruction Rat}

theorem along_concat (padding : Rat) (before : List (Instruction Rat)) (i : Instruction Rat) :
    along padding (before ++ [i]) = along padding before + (i.width + padding * (i.spaces : Rat)) := by
  simp [along]

theorem advance_eq (h : i.MeasuredBy fonts) (padding : Rat) :
    advance padding i = i.width + padding * (i.spaces : Rat) := by
  obtain ⟨kind, h⟩ := h
  generalize i.state = state at h
  rcases h with rfl | rfl
  all_goals cases kind
  all_goals simp [advance, Instruction.ofKind, Instruction.breakable]

theorem width_of_text {content : String} (h : i.MeasuredBy fonts) (hkind : i.kind = .text content) :
    i.width = fonts.textWidth i.state.font content i.state.size i.state.kerning := by
  obtain ⟨kind, h⟩ := h
  generalize i.state = state at h ⊢
  rcases h with rfl | rfl
  all_goals cases kind
  all_goals simp_all [Instruction.ofKind, Instruction.breakable]

end

/-! ## A pen on a line -/

namespace Pen

/-- A pen behind `before`, with a run waiting. -/
structure On (fonts : FontService Rat) (row : Row) (before : List (Instruction Rat))
    (waiting : Option (Started Rat)) (p : Pen Rat) : Prop where
  padding : p.padding = row.padding
  lastY : p.lastY = row.y
  reach : p.reach = row.offset + along row.padding before
  run : p.run = waiting.map Started.run
  waits : ∀ w ∈ waiting, p.x = row.offset + along row.padding w.before ∧
    w.before.countP Instruction.isGap = before.countP Instruction.isGap ∧ Fits fonts w.run ∧
    ∃ i ∈ before, i.state = w.run.state

/-- All places up to those that are left have been shown, each where it belongs. -/
def Shows (fonts : FontService Rat) (block : TextMatrix) (advances : List Rat)
    (script left : List Place) (struts : Nat) (p : Pen Rat) : Prop :=
  ∃ shown todo marks, script = shown ++ left ∧ List.Forall₂ (Together fonts) left todo ∧
    List.Forall₂ (Lands fonts block) shown marks ∧
    p.Tracks block advances struts todo.flatten marks.flatten

section

variable {fonts : FontService Rat} {block : TextMatrix} {advances : List Rat}
  {script left : List Place} {struts : Nat} {row : Row} {before : List (Instruction Rat)}
  {waiting : Option (Started Rat)} {p q : Pen Rat} {i : Instruction Rat}

theorem Shows.congr (h : p.Shows fonts block advances script left struts) (hops : q.ops = p.ops)
    (hlastX : q.lastX = p.lastX) (hlastY : q.lastY = p.lastY) (hx : q.x = p.x)
    (hpenX : q.penX = p.penX) : q.Shows fonts block advances script left struts := by
  obtain ⟨shown, todo, marks, hscript, hleft, hshown, htracks⟩ := h
  refine ⟨shown, todo, marks, hscript, hleft, hshown, ?_⟩
  constructor
  · rw [hops, hlastX, hlastY]
    exact htracks.line
  · rw [hops, hlastY, hx, hpenX]
    exact htracks.pen
  · rw [hops]
    exact htracks.advances_eq
  · rw [hops]
    exact htracks.marks_eq

/-- The gap of a strut may be left to the next run. -/
theorem Shows.strut (h : p.Shows fonts block advances script left struts) (x : Rat) :
    Shows fonts block advances script left (struts + 1) { p with x } := by
  obtain ⟨shown, todo, marks, hscript, hleft, hshown, htracks⟩ := h
  refine ⟨shown, todo, marks, hscript, hleft, hshown, htracks.line, ?_, htracks.advances_eq,
    htracks.marks_eq⟩
  obtain ⟨at_, slack, hpen, hslack, hnear, -⟩ := htracks.pen
  exact ⟨at_, slack, hpen, by omega, hnear, by omega⟩

theorem runAdvance_eq (p : Pen Rat) (run : Run Rat) :
    p.runAdvance run =
      run.width + p.padding * (((run.segments.map Prod.snd).sum : Nat) : Rat) := by
  have hsum (n : Nat) : run.segments.foldl (fun n s => n + s.2) n =
      n + (run.segments.map Prod.snd).sum := by
    induction run.segments generalizing n with
    | nil => simp
    | cons s segments ih => simp [ih, Nat.add_assoc]
  unfold runAdvance
  rw [hsum, Nat.zero_add]

theorem On.flush (h : p.On fonts row before waiting) : (p.flush fonts).On fonts row before none := by
  have hflush := sameLine_flush fonts p
  refine ⟨hflush.padding.trans h.padding, hflush.lastY.trans h.lastY, ?_, run_flush fonts p,
    by simp⟩
  rw [reach_of_run (run_flush fonts p), hflush.x]
  exact h.reach

/-- The run that waits is shown in its place. -/
theorem Shows.flush (hfonts : Encodes fonts)
    (h : p.Shows fonts block advances script (waiting.toList.map row.place ++ left)
      (before.countP Instruction.isGap)) (hon : p.On fonts row before waiting) :
    (p.flush fonts).Shows fonts block advances script left (before.countP Instruction.isGap) := by
  cases waiting with
  | none =>
    have hrun : p.run = none := hon.run
    rw [flush_none hrun]
    exact h
  | some w =>
    have hrun : p.run = some w.run := hon.run
    obtain ⟨hx, hgaps, hfits, -⟩ := hon.waits w rfl
    obtain ⟨shown, todo, marks, hscript, hleft, hshown, htracks⟩ := h
    cases hleft with
    | @cons _ shifts _ todo htogether hleft =>
      have hlength := htogether.length
      have hsum : shifts.sum = p.runAdvance w.run := by
        rw [htogether.sum, runAdvance_eq, hon.padding]
        exact shiftOf_eq hfonts hfits row.padding
      have hgroups : groupsOf fonts p.padding w.run ≠ [] :=
        groupsOf_ne_nil hfonts hfits.nonempty p.padding
      obtain ⟨more, at_, hafter, hitems, hfirst, hnear⟩ := htracks.flush hrun
        (by rw [hlength, hon.padding]; rfl) hsum hgroups
      have hlands : Lands fonts block (row.place w) more := by
        refine ⟨?_, ?_⟩
        · rw [hitems, hon.padding]
          rfl
        · obtain ⟨later, hlater⟩ := hfirst
          refine ⟨at_, later, ?_, ?_⟩
          · rw [hlater, hon.lastY]
            rfl
          · rw [hx, ← hgaps] at hnear
            exact hnear
      refine ⟨shown ++ [row.place w], todo, marks ++ [more], by simpa using hscript, hleft,
        List.rel_append hshown (.cons hlands .nil), ?_⟩
      rw [List.flatten_append]
      simpa using hafter

/-! ### Instructions -/

theorem On.behind {joined : Option (Started Rat)} (h : p.On fonts row before waiting)
    (hm : i.MeasuredBy fonts) (hq : Step fonts p i (.ok ()) q)
    (hrun : q.run = joined.map Started.run)
    (hwaits : ∀ w ∈ joined, q.x = row.offset + along row.padding w.before ∧
      w.before.countP Instruction.isGap = (before ++ [i]).countP Instruction.isGap ∧ Fits fonts w.run ∧
      ∃ j ∈ before ++ [i], j.state = w.run.state) :
    q.On fonts row (before ++ [i]) joined := by
  obtain ⟨hblock, hreach⟩ := hq.advances
  refine ⟨hblock.padding.trans h.padding, hblock.lastY.trans h.lastY, ?_, hrun, hwaits⟩
  rw [hreach, h.reach, h.padding, advance_eq hm, along_concat, add_assoc]

theorem countP_isGap (h : i.isGap = false) :
    (before ++ [i]).countP Instruction.isGap = before.countP Instruction.isGap := by simp [h]

/-- A text goes on with the run that waits, or ends it. -/
theorem Shows.addText {content : String} (hfonts : Encodes fonts)
    (h : p.Shows fonts block advances script
      ((joinStarted before waiting i).1.toList.map row.place ++ left) (before.countP Instruction.isGap))
    (hon : p.On fonts row before waiting) (hkind : i.kind = .text content)
    (hm : i.MeasuredBy fonts) (hsize : ¬ i.state.size ≤ 0)
    (hserial : ∀ j ∈ before, j.state.serial = i.state.serial → j.state = i.state) :
    (p.addText fonts i content).Shows fonts block advances script left (before.countP Instruction.isGap) ∧
      (p.addText fonts i content).On fonts row (before ++ [i]) (joinStarted before waiting i).2 := by
  have hwidth := width_of_text hm hkind
  have hdrawn : Step fonts p i (.ok ()) (p.addText fonts i content) := .text hkind
  have hgaps : (before ++ [i]).countP Instruction.isGap = before.countP Instruction.isGap :=
    countP_isGap (by simp [Instruction.isGap, hkind])
  by_cases hjoins : ∃ w ∈ waiting, w.run.state.serial = i.state.serial
  · obtain ⟨w, hwaits, hsame⟩ := hjoins
    obtain ⟨hx, hgap, hfits, j, hj, hstate⟩ := hon.waits w hwaits
    -- the serials agree, and on one line a serial has one style
    have hsame' : i.state = w.run.state := by
      rw [← hserial j hj (by rw [hstate]; exact hsame), hstate]
    have hrun : p.run = some w.run := by
      rw [hon.run, Option.mem_def.1 hwaits]
      rfl
    have hadd : p.addText fonts i content = { p with
        run := some { w.run with
          segments := w.run.segments ++ [(content, i.spaces)]
          width := w.run.width + i.width } } := by
      unfold Pen.addText
      rw [hrun]
      dsimp only
      rw [if_pos hsame]
    rw [Option.mem_def.1 hwaits, joinStarted_extend hkind hsame] at h ⊢
    refine ⟨?_, hon.behind hm hdrawn (by rw [hadd]; rfl) ?_⟩
    · rw [hadd]
      exact h.congr rfl rfl rfl rfl rfl
    · intro v hv
      cases hv
      rw [hadd, hgaps]
      refine ⟨hx, hgap, ⟨?_, hfits.size, by simp⟩, j, List.mem_append_left _ hj, hstate⟩
      show w.run.width + i.width = _
      rw [hfits.width, hwidth, hsame']
      simp
  · have hfresh : ∀ w ∈ waiting, w.run.state.serial ≠ i.state.serial := by
      intro w hwaits heq
      exact hjoins ⟨w, hwaits, heq⟩
    have hadd : p.addText fonts i content = { p.flush fonts with
        run := some { state := i.state, segments := [(content, i.spaces)], width := i.width } } := by
      unfold Pen.addText
      cases hwaits : waiting with
      | none =>
        have hrun : p.run = none := by
          rw [hon.run, hwaits]
          rfl
        rw [hrun]
      | some w =>
        have hrun : p.run = some w.run := by
          rw [hon.run, hwaits]
          rfl
        rw [hrun]
        dsimp only
        rw [if_neg (hfresh w hwaits)]
    have hflushed := hon.flush
    rw [joinStarted_fresh hkind hfresh] at h ⊢
    refine ⟨?_, hon.behind hm hdrawn (by rw [hadd]; rfl) ?_⟩
    · rw [hadd]
      exact (h.flush hfonts hon).congr rfl rfl rfl rfl rfl
    · intro v hv
      cases hv
      rw [hadd, hgaps]
      have hx : (p.flush fonts).x = row.offset + along row.padding before := by
        rw [← hflushed.reach, reach_of_run (run_flush fonts p)]
      refine ⟨hx, rfl, ⟨?_, not_le.1 hsize, by simp⟩, i, by simp, rfl⟩
      simpa using hwidth

/-- An instruction shows the run that it ends in its place. -/
theorem Shows.step {r : Except Error Unit} (hfonts : Encodes fonts)
    (h : p.Shows fonts block advances script
      ((joinStarted before waiting i).1.toList.map row.place ++ left) (before.countP Instruction.isGap))
    (hon : p.On fonts row before waiting) (hm : i.MeasuredBy fonts) (hsize : ¬ i.state.size ≤ 0)
    (hserial : ∀ j ∈ before, j.state.serial = i.state.serial → j.state = i.state)
    (hq : Step fonts p i r q) :
    q.Shows fonts block advances script left ((before ++ [i]).countP Instruction.isGap) ∧
      (r = .ok () → q.On fonts row (before ++ [i]) (joinStarted before waiting i).2) := by
  have hdraw := hq
  have hrun := run_flush fonts p
  cases hq with
  | text hkind =>
    rw [countP_isGap (by simp [Instruction.isGap, hkind])]
    obtain ⟨hshows, hnext⟩ := h.addText hfonts hon hkind hm hsize hserial
    exact ⟨hshows, fun _ => hnext⟩
  | gap hgap =>
    have hcount : (before ++ [i]).countP Instruction.isGap =
        before.countP Instruction.isGap + 1 := by simp [hgap]
    rw [joinStarted_end (by simp [hgap])] at h ⊢
    rw [hcount]
    exact ⟨(h.flush hfonts hon).strut _, fun _ => hon.behind hm hdraw hrun (by simp)⟩
  | linkStart hkind =>
    have hlink : i.isLink = true := by simp [Instruction.isLink, hkind]
    rw [joinStarted_end (by simp [hlink])] at h ⊢
    rw [countP_isGap (Instruction.isGap_of_isLink hlink)]
    exact ⟨(h.flush hfonts hon).congr rfl rfl rfl rfl rfl,
      fun _ => hon.behind hm hdraw hrun (by simp)⟩
  | badAnchor hkind =>
    have hlink : i.isLink = true := by simp [Instruction.isLink, hkind]
    rw [joinStarted_end (by simp [hlink])] at h
    rw [countP_isGap (Instruction.isGap_of_isLink hlink)]
    exact ⟨h.flush hfonts hon, fun hr => by cases hr⟩
  | @linkEnd link links hkind =>
    have hlink : i.isLink = true := by simp [Instruction.isLink, hkind]
    obtain ⟨canvas, hcanvas⟩ := annotateAll_cases (p.flush fonts) [link]
    rw [joinStarted_end (by simp [hlink])] at h ⊢
    rw [countP_isGap (Instruction.isGap_of_isLink hlink)]
    rw [hcanvas] at hdraw ⊢
    exact ⟨(h.flush hfonts hon).congr rfl rfl rfl rfl rfl,
      fun _ => hon.behind hm hdraw hrun (by simp)⟩
  | noLink hkind =>
    have hlink : i.isLink = true := by simp [Instruction.isLink, hkind]
    rw [joinStarted_end (by simp [hlink])] at h ⊢
    rw [countP_isGap (Instruction.isGap_of_isLink hlink)]
    exact ⟨h.flush hfonts hon, fun _ => hon.behind hm hdraw hrun (by simp)⟩
  | plain hplain =>
    have hgap := Instruction.isGap_of_isPlain hplain
    rw [joinStarted_plain hplain] at h ⊢
    rw [countP_isGap hgap]
    refine ⟨h, fun _ => hon.behind hm hdraw hon.run ?_⟩
    intro w hw
    rw [countP_isGap hgap]
    obtain ⟨hx, hgaps, hfits, j, hj, hstate⟩ := hon.waits w hw
    exact ⟨hx, hgaps, hfits, j, List.mem_append_left _ hj, hstate⟩

theorem Shows.drawInstructions {line : Line Rat} {items : List (Instruction Rat)}
    {r : Except Error Unit} (hfonts : Encodes fonts)
    (h : p.Shows fonts block advances script
      ((startsFrom before waiting items).map row.place ++ left) (before.countP Instruction.isGap))
    (hon : p.On fonts row before waiting) (hline : Sized fonts line)
    (hsplit : line.instructions = before ++ items)
    (hq : p.drawInstructions fonts items = (r, q)) :
    (∃ more struts, q.Shows fonts block advances script more struts) ∧
      (r = .ok () → ∃ waits, q.On fonts row line.instructions waits ∧
        q.Shows fonts block advances script (waits.toList.map row.place ++ left)
          (line.instructions.countP Instruction.isGap)) := by
  induction items generalizing p before waiting with
  | nil =>
    cases hq
    rw [List.append_nil] at hsplit
    rw [hsplit]
    exact ⟨⟨_, _, h⟩, fun _ => ⟨waiting, hon, h⟩⟩
  | cons i items ih =>
    have hi : i ∈ line.instructions := by
      rw [hsplit]
      simp
    have hserial : ∀ j ∈ before, j.state.serial = i.state.serial → j.state = i.state := by
      intro j hj
      exact hline.serials j (by rw [hsplit]; exact List.mem_append_left _ hj) i hi
    rw [startsFrom, List.map_append, List.append_assoc] at h
    rw [Pen.drawInstructions] at hq
    split at hq
    · next e next hstep =>
      cases hq
      obtain ⟨hnext, -⟩ := h.step hfonts hon (hline.measured i hi) (hline.positive i hi) hserial
        (step_of_drawInstruction hstep)
      exact ⟨⟨_, _, hnext⟩, fun hr => by cases hr⟩
    · next next hstep =>
      obtain ⟨hnext, hbehind⟩ := h.step hfonts hon (hline.measured i hi) (hline.positive i hi)
        hserial (step_of_drawInstruction hstep)
      exact ih hnext (hbehind rfl) (by simp [hsplit]) hq

/-! ### Lines -/

theorem Shows.startLine (h : p.Shows fonts block advances script left struts) (line : Line Rat)
    (row : Row) :
    (p.startLine line row.y row.offset row.padding).Shows fonts block advances script left 0 := by
  obtain ⟨shown, todo, marks, hscript, hleft, hshown, htracks⟩ := h
  have hmoved : plot advances (p.startLine line row.y row.offset row.padding).ops =
      { line := block.translate row.offset row.y, pen := block.translate row.offset row.y
        advances := todo.flatten, marks := marks.flatten } := by
    show plot advances (p.ops ++ [.move (row.offset - p.lastX) (row.y - p.lastY)]) = _
    rw [plot_concat]
    unfold Plotter.step
    dsimp only
    rw [htracks.line, htracks.advances_eq, htracks.marks_eq, TextMatrix.translate_translate]
    simp
  refine ⟨shown, todo, marks, hscript, hleft, hshown, ?_, ⟨row.offset, 0, ?_, le_refl 0, ?_, ?_⟩,
    ?_, ?_⟩
  · rw [hmoved]
    rfl
  · rw [hmoved]
    rfl
  · show |row.offset - row.offset| ≤ _
    simp
  · exact fun _ => rfl
  · rw [hmoved]
  · rw [hmoved]

theorem on_startLine (hrun : p.run = none) (line : Line Rat) (row : Row) :
    (p.startLine line row.y row.offset row.padding).On fonts row [] none where
  padding := rfl
  lastY := rfl
  reach := by
    have hstart : (p.startLine line row.y row.offset row.padding).run = none := hrun
    rw [reach_of_run hstart]
    show row.offset = row.offset + 0
    rw [add_zero]
  run := hrun
  waits := by simp

/-- A line shows its runs in their places, and no text waits behind it. -/
theorem Shows.drawLine {common : TextAlign} {width baseline : Rat} {line : Line Rat}
    {r : Except Error Unit} (hfonts : Encodes fonts)
    (hrow : row = ⟨(placeLine (alignOf common line) width line).1,
      (placeLine (alignOf common line) width line).2, baseline⟩)
    (h : p.Shows fonts block advances script
      ((startsFrom [] none line.instructions).map row.place ++ left) struts)
    (hrun : p.run = none) (hline : Sized fonts line)
    (hq : p.drawLine fonts common width line baseline = (r, q)) :
    ∃ more struts, q.Shows fonts block advances script more struts ∧
      (r = .ok () → q.run = none ∧ more = left) := by
  subst hrow
  obtain ⟨hfailed, hdone⟩ := (h.startLine line _).drawInstructions hfonts
    (on_startLine hrun line _) hline (List.nil_append _).symm rfl
  unfold Pen.drawLine at hq
  dsimp only at hq hfailed hdone
  split at hq
  · next e drawn hdrawn =>
    cases hq
    rw [hdrawn] at hfailed
    obtain ⟨more, struts, hshows⟩ := hfailed
    exact ⟨more, struts, hshows, fun hr => by cases hr⟩
  · next drawn hdrawn =>
    cases hq
    rw [hdrawn] at hdone
    obtain ⟨waits, hon, hshows⟩ := hdone rfl
    have hflushed := hshows.flush hfonts hon
    obtain ⟨canvas, hcanvas⟩ := annotateAll_cases (drawn.flush fonts)
      (drawn.flush fonts).links.reverse
    refine ⟨left, line.instructions.countP Instruction.isGap, ?_, fun _ => ⟨?_, rfl⟩⟩
    · show ((drawn.flush fonts).annotateAll _).Shows _ _ _ _ _ _
      rw [hcanvas]
      exact hflushed.congr rfl rfl rfl rfl rfl
    · show ((drawn.flush fonts).annotateAll _).run = none
      rw [hcanvas]
      exact run_flush fonts drawn

theorem Shows.drawLines {options : DrawOptions Rat} {width : Rat} {above lines : List (Line Rat)}
    {r : Except Error Rat} (hfonts : Encodes fonts)
    (h : p.Shows fonts block advances script (placesFrom options width above lines ++ left) struts)
    (hrun : p.run = none) (hlines : ∀ line ∈ lines, Sized fonts line)
    (hq : p.drawLines fonts options width (topOf options above) lines = (r, q)) :
    ∃ more struts, q.Shows fonts block advances script more struts ∧
      (∀ used, r = .ok used → more = left) := by
  induction lines generalizing p above struts with
  | nil =>
    cases hq
    exact ⟨left, struts, h, fun _ _ => rfl⟩
  | cons line lines ih =>
    obtain ⟨hline, hrest⟩ := List.forall_mem_cons.1 hlines
    rw [placesFrom, List.append_assoc] at h
    rw [Pen.drawLines, ← topOf_concat] at hq
    split at hq
    · next e drawn hdrawn =>
      cases hq
      obtain ⟨more, struts, hshows, -⟩ := h.drawLine hfonts rfl hrun hline hdrawn
      exact ⟨more, struts, hshows, fun used hr => by cases hr⟩
    · next drawn hdrawn =>
      obtain ⟨more, struts, hshows, hdone⟩ := h.drawLine hfonts rfl hrun hline hdrawn
      obtain ⟨hnone, rfl⟩ := hdone rfl
      exact ih hshows hnone hrest hq

end

end Pen

/-! ## Blocks -/

/-- Where a block is on the page. -/
def blockMatrix (rotation : Option (Rotation Rat)) (x y : Rat) : TextMatrix :=
  match rotation with
  | some r => ⟨r.cos, r.sin, -r.sin, r.cos, x, y⟩
  | none => TextMatrix.identity.translate x y

namespace DrawContext

variable {c : DrawContext Rat} {fonts : FontService Rat} {canvas : Canvas Rat}
  {lines : List (Line Rat)} {x y width : Rat}

theorem shows_start {advances : List (List Rat)} {places : List Place}
    (h : List.Forall₂ (Together fonts) places advances) (canvas : Canvas Rat) (x y : Rat) :
    (c.start canvas x y).Shows fonts (blockMatrix c.options.rotation x y) advances.flatten
      places places 0 := by
  have hplot : plot advances.flatten (c.start canvas x y).ops =
      { line := blockMatrix c.options.rotation x y, pen := blockMatrix c.options.rotation x y
        advances := advances.flatten, marks := [] } := by
    unfold start blockMatrix
    cases c.options.rotation <;> cases c.options.renderMode <;> rfl
  have hcorner (m : TextMatrix) : m.translate 0 0 = m := by simp [TextMatrix.translate]
  refine ⟨[], advances, [], rfl, h, .nil, ?_, ⟨0, 0, ?_, le_refl 0, ?_, ?_⟩, ?_, ?_⟩
  · rw [hplot]
    exact (hcorner _).symm
  · rw [hplot]
    exact (hcorner _).symm
  · simp [start]
  · exact fun _ => rfl
  · rw [hplot]
  · rw [hplot]
    rfl

end DrawContext

/-- A viewer that goes through the operators of a block meets its runs in the places where layout has
put them, in their order: all of them, if the block is drawn, and else the first of them. -/
theorem draw_places_runs {c : DrawContext Rat} {catalog : Catalog} {canvas : Canvas Rat}
    {lines : List (Line Rat)} {x y width : Rat} {advances : List (List Rat)}
    (hlines : ∀ line ∈ lines, LaidOut catalog.service line)
    (hadvances : List.Forall₂ (Together catalog.service) (placesFrom c.options width [] lines)
      advances) :
    ∃ shown left marks, placesFrom c.options width [] lines = shown ++ left ∧
      (plot advances.flatten (c.textObject catalog.service canvas lines x y width)).marks =
        marks.flatten ∧
      List.Forall₂ (Lands catalog.service (blockMatrix c.options.rotation x y)) shown marks ∧
      ∀ used, (c.draw catalog.service canvas lines x y width).1 = .ok used → left = [] := by
  have hfonts : Encodes (catalog.service : FontService Rat) := by
    intro font text kerning
    show catalog.encode font text kerning ≠ []
    simp [Catalog.encode]
  have hstart := DrawContext.shows_start (c := c) hadvances canvas x y
  rw [← List.append_nil (placesFrom c.options width [] lines)] at hstart
  have htop : topOf c.options [] = 0 := neg_zero
  obtain ⟨left, struts, ⟨shown, todo, marks, hscript, -, hshown, htracks⟩, hdone⟩ :=
    hstart.drawLines hfonts rfl (fun line hline => Sized.of_laidOut (hlines line hline)) rfl
  rw [htop] at htracks hdone
  rw [List.append_nil] at hscript
  refine ⟨shown, left, marks, hscript, htracks.marks_eq, hshown, ?_⟩
  intro used hused
  by_cases hempty : lines = []
  · subst hempty
    exact hdone 0 rfl
  · obtain ⟨top, p, hp, -⟩ := DrawContext.result_draw hempty hused
    exact hdone top (by rw [hp])

/-! ## An indented paragraph on two lines -/

namespace Sample

def indented : String := "<p>a b<b>c</b> dd e</p>"

def courier : Options Rat :=
  { Options.standard with fontFamily := "Courier", fontSize := 10, align := .justify }

def indentedLines : Option (List (Line Rat)) := do
  let f ← (Formatter.ofText indented courier Catalog.standard.service .builtin).toOption
  f.typesetter.linesWithin 60 4

theorem layout_indented {lines : List (Line Rat)} (h : indentedLines = some lines) :
    layout indented 60 courier Catalog.standard.service .builtin = .ok lines := by
  unfold indentedLines at h
  obtain ⟨f, hf, hlines⟩ := Option.bind_eq_some_iff.1 h
  unfold layout
  rw [ok_of_toOption hf]
  exact Typesetter.lines_of_within hlines

def justifying : DrawContext Rat :=
  { options := { align := .justify, spacing := 0, rotation := none, renderMode := none } }

end Sample

instance (fonts : FontService Rat) (place : Place) (shifts : List Rat) :
    Decidable (Together fonts place shifts) :=
  decidable_of_iff (shifts.length = (groupsOf fonts place.padding place.run).length ∧
    shifts.sum = shiftOf fonts place.padding place.run)
    ⟨fun h => ⟨h.1, h.2⟩, fun h => ⟨h.length, h.sum⟩⟩

/-- Behind the indent the first line is filled: its one space is given six points more. -/
theorem draw_places_indented :
    ∃ lines, layout Sample.indented 60 Sample.courier Catalog.standard.service .builtin =
        .ok lines ∧
      (placesFrom Sample.justifying.options 60 [] lines).map (fun p => (p.x, p.y, p.struts)) =
        [(30, -449 / 50, 1), (54, -449 / 50, 1), (0, -1953 / 100, 0)] ∧
      ∃ marks, (plot [24, 6, 24] (Sample.justifying.textObject Catalog.standard.service .standard lines
          50 700 60)).marks = marks.flatten ∧
        List.Forall₂ (Lands Catalog.standard.service (TextMatrix.identity.translate 50 700))
          (placesFrom Sample.justifying.options 60 [] lines) marks := by
  have hsome : Sample.indentedLines.isSome = true := by decide +kernel
  have hplaces : Sample.indentedLines.map (fun lines =>
      (placesFrom Sample.justifying.options 60 [] lines).map fun p => (p.x, p.y, p.struts)) =
        some [(30, -449 / 50, 1), (54, -449 / 50, 1), (0, -1953 / 100, 0)] := by decide +kernel
  have htogether : ∀ lines ∈ Sample.indentedLines,
      List.Forall₂ (Together Catalog.standard.service)
        (placesFrom Sample.justifying.options 60 [] lines) [[24], [6], [24]] := by decide +kernel
  have hdrawn : ∀ lines ∈ Sample.indentedLines,
      (Sample.justifying.draw Catalog.standard.service .standard lines 50 700 60).1.toOption.isSome =
        true := by decide +kernel
  obtain ⟨lines, hlines⟩ := Option.isSome_iff_exists.1 hsome
  have hlayout := Sample.layout_indented hlines
  have hlaid : ∀ line ∈ lines, LaidOut Catalog.standard.service line := LaidOut.of_layout hlayout
  obtain ⟨shown, left, marks, hall, hmarks, hlands, hdone⟩ :=
    @draw_places_runs Sample.justifying Catalog.standard .standard lines 50 700 60 _ hlaid
      (htogether lines hlines)
  obtain ⟨used, hused⟩ := Option.isSome_iff_exists.1 (hdrawn lines hlines)
  rw [hdone used (ok_of_toOption hused), List.append_nil] at hall
  refine ⟨lines, hlayout, ?_, marks, hmarks, ?_⟩
  · rw [hlines] at hplaces
    exact Option.some.inj hplaces
  · rw [hall]
    exact hlands

end Drawing
end Galley
