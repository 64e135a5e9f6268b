import Galley.Proofs.Drawing.TextObject

/-
What an instruction does to a pen.

A pen that shows the text that waits moves on by the room of that text and writes operators, and
its canvas may enter fonts.  Everything else about it stays: the block and the line that it is on,
the links that are open, and all that is on the pages (`SameLine`).  With that, `Step` says all that
an instruction can do to a pen.  Whatever it does, the line comes further by the room that the
instruction takes (`Step.advances`).  A relation that goes from a pen to what each step makes of it
holds across lines and blocks (`LineRelation.drawLines`).
-/

namespace Galley
namespace Drawing

open Font Paragraph Pdf Style

variable {α : Type} [Scalar α]

namespace Pen

/-- The pen is in the same block and on the same line. -/
structure SameBlock (p q : Pen α) : Prop where
  originX : q.originX = p.originX
  originY : q.originY = p.originY
  rotation : q.rotation = p.rotation
  baseline : q.baseline = p.baseline
  lastY : q.lastY = p.lastY
  padding : q.padding = p.padding
  ascent : q.ascent = p.ascent
  descent : q.descent = p.descent

/-- It is also at the same point, with the same links open, and but for fonts that were entered its
canvas is the same. -/
structure SameLine (p q : Pen α) : Prop extends SameBlock p q where
  links : q.links = p.links
  x : q.x = p.x
  canvas : ∃ fonts, q.canvas = { p.canvas with fonts }

section

variable {p q r : Pen α} {fonts : FontService α}

omit [Scalar α] in
theorem SameBlock.refl (p : Pen α) : SameBlock p p := ⟨rfl, rfl, rfl, rfl, rfl, rfl, rfl, rfl⟩

omit [Scalar α] in
theorem SameBlock.trans (h : SameBlock p q) (k : SameBlock q r) : SameBlock p r where
  originX := k.originX.trans h.originX
  originY := k.originY.trans h.originY
  rotation := k.rotation.trans h.rotation
  baseline := k.baseline.trans h.baseline
  lastY := k.lastY.trans h.lastY
  padding := k.padding.trans h.padding
  ascent := k.ascent.trans h.ascent
  descent := k.descent.trans h.descent

omit [Scalar α] in
theorem SameBlock.write (h : SameBlock p q) (canvas : Canvas α)
    (links : List (Option (OpenLink α))) (x lastX penX : α) (cookies : Cookies α)
    (run : Option (Run α)) (decorations : List (DecorationLine α)) (ops : List (TextOp α)) :
    SameBlock p { q with canvas, links, x, lastX, penX, cookies, run, decorations, ops } :=
  ⟨h.originX, h.originY, h.rotation, h.baseline, h.lastY, h.padding, h.ascent, h.descent⟩

omit [Scalar α] in
theorem SameLine.refl (p : Pen α) : SameLine p p :=
  ⟨.refl p, rfl, rfl, p.canvas.fonts, rfl⟩

omit [Scalar α] in
theorem SameLine.trans (h : SameLine p q) (k : SameLine q r) : SameLine p r where
  toSameBlock := h.toSameBlock.trans k.toSameBlock
  links := k.links.trans h.links
  x := k.x.trans h.x
  canvas := by
    obtain ⟨first, hfirst⟩ := h.canvas
    obtain ⟨second, hsecond⟩ := k.canvas
    exact ⟨second, by rw [hsecond, hfirst]⟩

omit [Scalar α] in
/-- Operators may be written, and all that is remembered of them. -/
theorem SameLine.write (h : SameLine p q) (lastX penX : α) (cookies : Cookies α)
    (run : Option (Run α)) (decorations : List (DecorationLine α)) (ops : List (TextOp α)) :
    SameLine p { q with lastX, penX, cookies, run, decorations, ops } :=
  ⟨h.toSameBlock.write _ _ _ _ _ _ _ _ _, h.links, h.x, h.canvas⟩

theorem sameLine_catchUp (p : Pen α) : SameLine p p.catchUp := by
  unfold catchUp
  split
  · exact (SameLine.refl p).write _ _ _ _ _ _
  · exact .refl p

omit [Scalar α] in
theorem sameLine_writeUnless (p : Pen α) (same : Bool) (op : TextOp α) (cookies : Cookies α) :
    SameLine p (p.writeUnless same op cookies) := by
  unfold writeUnless
  cases same with
  | true => exact .refl p
  | false => exact (SameLine.refl p).write _ _ _ _ _ _

theorem sameLine_enterFont (fonts : FontService α) (p : Pen α) (s : Shown α) :
    SameLine p (p.enterFont fonts s) := by
  have hentered : SameLine p { p with canvas := (fontOf fonts p.canvas s).2 } := by
    refine ⟨⟨rfl, rfl, rfl, rfl, rfl, rfl, rfl, rfl⟩, rfl, rfl, ?_⟩
    show ∃ entered, (fontOf fonts p.canvas s).2 = _
    unfold fontOf Canvas.fontResource
    dsimp only
    split
    · exact ⟨p.canvas.fonts, rfl⟩
    · exact ⟨_, rfl⟩
  unfold enterFont
  rw [setFont_eq]
  exact hentered.trans (sameLine_writeUnless _ _ _ _)

omit [Scalar α] in
theorem sameLine_noteGlyphs (fonts : FontService α) (p : Pen α) (run : Run α) (name : String) :
    SameLine p (p.noteGlyphs fonts run name) := by
  unfold noteGlyphs
  split
  · refine ⟨⟨rfl, rfl, rfl, rfl, rfl, rfl, rfl, rfl⟩, rfl, rfl, ?_⟩
    show ∃ entered, p.canvas.useGlyphs name _ = _
    unfold Canvas.useGlyphs
    split
    · exact ⟨_, rfl⟩
    · exact ⟨p.canvas.fonts, rfl⟩
  · exact .refl p

theorem sameLine_showGroup (fonts : FontService α) (run : Run α) (p : Pen α) (group : Group α) :
    SameLine p (p.showGroup fonts run group) := by
  have hready := (sameLine_enterFont fonts p { state := run.state, group }).trans
    (sameLine_noteGlyphs fonts _ run (fontOf fonts p.canvas { state := run.state, group }).1)
  rw [showGroup_eq]
  exact hready.write _ _ _ _ _ _

theorem sameLine_showGroups (fonts : FontService α) (run : Run α) (p : Pen α)
    (groups : List (Group α)) : SameLine p (groups.foldl (showGroup fonts run) p) := by
  induction groups generalizing p with
  | nil => exact .refl p
  | cons group groups ih => exact (sameLine_showGroup fonts run p group).trans (ih _)

theorem sameLine_paint (p : Pen α) (state : StyleState α) : SameLine p (p.paint state) :=
  ((sameLine_catchUp p).trans (sameLine_writeUnless _ _ _ _)).trans (sameLine_writeUnless _ _ _ _)

theorem sameLine_showRun (fonts : FontService α) (p : Pen α) (run : Run α) :
    SameLine p (p.showRun fonts run) :=
  (sameLine_paint p run.state).trans (sameLine_showGroups fonts run _ _)

theorem sameLine_decorate (p : Pen α) (run : Run α) : SameLine p (p.decorate run) := by
  unfold decorate
  split
  · exact (SameLine.refl p).write _ _ _ _ _ _
  · exact .refl p

/-! ## Where the line has come to -/

/-- Where the line has come to, with the text that waits. -/
def reach (p : Pen α) : α :=
  match p.run with
  | none => p.x
  | some run => p.x + p.runAdvance run

/-- A flush moves the line on to where it comes with the text that waits. -/
theorem sameLine_flush (fonts : FontService α) (p : Pen α) :
    SameLine { p with x := p.reach } (p.flush fonts) := by
  cases hrun : p.run with
  | none =>
    have hreach : p.reach = p.x := by
      unfold reach
      rw [hrun]
    rw [flush_none hrun, hreach]
    exact ⟨⟨rfl, rfl, rfl, rfl, rfl, rfl, rfl, rfl⟩, rfl, rfl, p.canvas.fonts, rfl⟩
  | some run =>
    have hshown := sameLine_showRun fonts { p with run := none } run
    have hreach : p.reach = p.x + p.runAdvance run := by
      unfold reach
      rw [hrun]
    have hadvance : (showRun fonts { p with run := none } run).x +
        (showRun fonts { p with run := none } run).runAdvance run = p.reach := by
      unfold runAdvance
      rw [hshown.x, hshown.padding, hreach]
      rfl
    rw [flush_some hrun, hadvance]
    have hboth := hshown.trans (sameLine_decorate _ run)
    exact ⟨⟨hboth.originX, hboth.originY, hboth.rotation, hboth.baseline, hboth.lastY,
      hboth.padding, hboth.ascent, hboth.descent⟩, hboth.links, rfl, hboth.canvas⟩

@[simp] theorem run_flush (fonts : FontService α) (p : Pen α) : (p.flush fonts).run = none :=
  (frame_flush fonts p).run

end

end Pen

/-! ## Instructions -/

/-- Room that an instruction takes on a line whose spaces are given `padding`. -/
def advance (padding : α) (i : Instruction α) : α :=
  match i.kind with
  | .text _ => i.width + padding * (i.spaces : α)
  | .strut _ | .paragraphStart _ => i.width
  | _ => 0

theorem advance_text {i : Instruction α} {content : String} (h : i.kind = .text content)
    (padding : α) : advance padding i = i.width + padding * (i.spaces : α) := by
  unfold advance
  rw [h]

theorem advance_gap {i : Instruction α} (h : i.isGap = true) (padding : α) :
    advance padding i = i.width := by
  unfold Instruction.isGap at h
  unfold advance
  cases hkind : i.kind <;> simp_all

theorem advance_plain {i : Instruction α} (h : i.isPlain = true) (padding : α) :
    advance padding i = 0 := by
  unfold Instruction.isPlain at h
  unfold advance
  cases hkind : i.kind <;> simp_all

namespace Pen

section

variable {fonts : FontService α} {p q : Pen α} {i : Instruction α}

theorem annotate_cases (p : Pen α) (link : OpenLink α) :
    ∃ canvas, p.annotate link = { p with canvas } := by
  unfold annotate
  split
  · exact ⟨p.canvas, rfl⟩
  · exact ⟨_, rfl⟩

theorem annotateAll_cases (p : Pen α) (links : List (Option (OpenLink α))) :
    ∃ canvas, p.annotateAll links = { p with canvas } := by
  induction links generalizing p with
  | nil => exact ⟨p.canvas, rfl⟩
  | cons link links ih =>
    cases link with
    | none => exact ih p
    | some link =>
      obtain ⟨canvas, hlink⟩ := annotate_cases p link
      obtain ⟨last, hlinks⟩ := ih (p.annotate link)
      refine ⟨last, ?_⟩
      show (p.annotate link).annotateAll links = _
      rw [hlinks, hlink]

theorem addAnchor_cases {anchor : Option String} (h : p.addAnchor i anchor = .ok q) :
    ∃ destinations, q = { p with canvas := { p.canvas with destinations } } := by
  unfold addAnchor at h
  split at h
  · cases h
    exact ⟨p.canvas.destinations, rfl⟩
  · obtain ⟨⟨label, view⟩, -, rfl⟩ := exists_of_map_ok h
    exact ⟨_, rfl⟩

/-- All that an instruction can do to a pen. -/
inductive Step (fonts : FontService α) (p : Pen α) (i : Instruction α) :
    Except Error Unit → Pen α → Prop where
  | text {content : String} (hkind : i.kind = .text content) :
      Step fonts p i (.ok ()) (p.addText fonts i content)
  | gap (hgap : i.isGap = true) :
      Step fonts p i (.ok ()) { p.flush fonts with x := (p.flush fonts).x + i.width }
  | linkStart {anchor target : Option String} (hkind : i.kind = .linkStart anchor target)
      (destinations : List (NamedDestination α)) :
      Step fonts p i (.ok ()) { p.flush fonts with
        canvas := { (p.flush fonts).canvas with destinations }
        links := (target.map fun target => { target, start := (p.flush fonts).x }) :: p.links }
  | badAnchor {anchor target : Option String} {e : Error}
      (hkind : i.kind = .linkStart anchor target) : Step fonts p i (.error e) (p.flush fonts)
  | linkEnd {link : Option (OpenLink α)} {links : List (Option (OpenLink α))}
      (hkind : i.kind = .linkEnd) (hlinks : p.links = link :: links) :
      Step fonts p i (.ok ()) { (p.flush fonts).annotateAll [link] with links }
  | noLink (hkind : i.kind = .linkEnd) (hlinks : p.links = []) :
      Step fonts p i (.ok ()) (p.flush fonts)
  | plain (hplain : i.isPlain = true) : Step fonts p i (.ok ()) p

theorem step_of_drawInstruction {r : Except Error Unit}
    (h : p.drawInstruction fonts i = (r, q)) : Step fonts p i r q := by
  have hlinks : (p.flush fonts).links = p.links := (sameLine_flush fonts p).links
  unfold drawInstruction at h
  cases hkind : i.kind with
  | text content =>
    rw [hkind] at h
    cases h
    exact .text hkind
  | strut _ | paragraphStart _ =>
    rw [hkind] at h
    cases h
    exact .gap (by simp [Instruction.isGap, hkind])
  | linkStart anchor target =>
    rw [hkind] at h
    dsimp only at h
    split at h
    · cases h
      exact .badAnchor hkind
    · next anchored hanchor =>
      obtain ⟨destinations, rfl⟩ := addAnchor_cases hanchor
      cases h
      dsimp only
      rw [hlinks]
      exact .linkStart hkind destinations
  | linkEnd =>
    rw [hkind] at h
    dsimp only at h
    split at h
    · next hnone =>
      cases h
      exact .noLink hkind (hlinks.symm.trans hnone)
    · next link links hopen =>
      cases h
      exact .linkEnd hkind (hlinks.symm.trans hopen)
  | tagOpen _ | tagClose _ | lineBreak | pageBreak | paragraphEnd =>
    rw [hkind] at h
    cases h
    exact .plain (by simp [Instruction.isPlain, hkind])

theorem sameBlock_flush (fonts : FontService α) (p : Pen α) : SameBlock p (p.flush fonts) := by
  have h := sameLine_flush fonts p
  exact ⟨h.originX, h.originY, h.rotation, h.baseline, h.lastY, h.padding, h.ascent, h.descent⟩

theorem sameBlock_addText (fonts : FontService α) (p : Pen α) (i : Instruction α)
    (content : String) : SameBlock p (p.addText fonts i content) := by
  have hflush := sameBlock_flush fonts p
  unfold addText
  dsimp only
  split
  · split
    · exact (SameBlock.refl p).write _ _ _ _ _ _ _ _ _
    · exact hflush.write _ _ _ _ _ _ _ _ _
  · exact hflush.write _ _ _ _ _ _ _ _ _

theorem reach_of_run {p : Pen α} (h : p.run = none) : p.reach = p.x := by
  unfold reach
  rw [h]

/-! ### From step to step -/

/-- The relation goes from a pen to what each step along a line makes of it. -/
structure LineRelation (fonts : FontService α) (R : Pen α → Pen α → Prop) : Prop where
  refl (p : Pen α) : R p p
  trans {p q r : Pen α} : R p q → R q r → R p r
  drawInstruction {p q : Pen α} {i : Instruction α} {r : Except Error Unit} :
    p.drawInstruction fonts i = (r, q) → R p q
  flush (p : Pen α) : R p (p.flush fonts)
  annotateAll (p : Pen α) (links : List (Option (OpenLink α))) : R p (p.annotateAll links)

namespace LineRelation

variable {R : Pen α → Pen α → Prop}

theorem drawInstructions (hR : LineRelation fonts R) {items : List (Instruction α)}
    {r : Except Error Unit} (h : p.drawInstructions fonts items = (r, q)) : R p q := by
  induction items generalizing p with
  | nil =>
    cases h
    exact hR.refl _
  | cons i items ih =>
    rw [Pen.drawInstructions] at h
    split at h
    · next hstep =>
      cases h
      exact hR.drawInstruction hstep
    · next hstep => exact hR.trans (hR.drawInstruction hstep) (ih h)

/-- A line is started where it is placed, and then drawn along. -/
theorem drawLine (hR : LineRelation fonts R) {common : TextAlign} {width baseline : α}
    {line : Line α} {r : Except Error Unit}
    (h : p.drawLine fonts common width line baseline = (r, q)) :
    R (p.startLine line baseline (placeLine (alignOf common line) width line).1
      (placeLine (alignOf common line) width line).2) q := by
  unfold Pen.drawLine at h
  dsimp only at h
  split at h
  · next hdrawn =>
    cases h
    exact hR.drawInstructions hdrawn
  · next drawn hdrawn =>
    cases h
    have hflushed := hR.trans (hR.drawInstructions hdrawn) (hR.flush drawn)
    exact hR.trans hflushed (hR.annotateAll _ _)

theorem drawLines (hR : LineRelation fonts R)
    (hstart : ∀ (p : Pen α) (line : Line α) (baseline offset padding : α),
      R p (p.startLine line baseline offset padding))
    {options : DrawOptions α} {width top : α} {lines : List (Line α)} {r : Except Error α}
    (h : p.drawLines fonts options width top lines = (r, q)) : R p q := by
  induction lines generalizing p top with
  | nil =>
    cases h
    exact hR.refl _
  | cons line lines ih =>
    rw [Pen.drawLines] at h
    split at h
    · next hline =>
      cases h
      exact hR.trans (hstart _ _ _ _ _) (hR.drawLine hline)
    · next hline => exact hR.trans (hR.trans (hstart _ _ _ _ _) (hR.drawLine hline)) (ih h)

end LineRelation

end

/-! ### In exact arithmetic -/

section

variable {fonts : FontService Rat} {p q : Pen Rat} {i : Instruction Rat}

theorem reach_flush (fonts : FontService Rat) (p : Pen Rat) :
    (p.flush fonts).reach = p.reach := by
  rw [reach_of_run (run_flush fonts p), (sameLine_flush fonts p).x]

theorem reach_addText {content : String} (hkind : i.kind = .text content) (p : Pen Rat) :
    (p.addText fonts i content).reach = p.reach + advance p.padding i := by
  have hflush := sameLine_flush fonts p
  have hfresh : ({ p.flush fonts with
      run := some { state := i.state, segments := [(content, i.spaces)], width := i.width } } :
        Pen Rat).reach = p.reach + (i.width + p.padding * (i.spaces : Rat)) := by
    show (p.flush fonts).x + (i.width + (p.flush fonts).padding * ((0 + i.spaces : Nat) : Rat)) = _
    rw [hflush.x, hflush.padding, Nat.zero_add]
  rw [advance_text hkind]
  unfold addText
  cases hrun : p.run with
  | none => exact hfresh
  | some run =>
    dsimp only
    by_cases hserial : run.state.serial = i.state.serial
    · rw [if_pos hserial]
      have hreach : p.reach = p.x + p.runAdvance run := by
        unfold reach
        rw [hrun]
      rw [hreach]
      show p.x + (run.width + i.width + p.padding *
        (((run.segments ++ [(content, i.spaces)]).foldl (fun n s => n + s.2) 0 : Nat) : Rat)) = _
      rw [List.foldl_append]
      unfold runAdvance
      push_cast [List.foldl_cons, List.foldl_nil]
      ring
    · rw [if_neg hserial]
      exact hfresh

/-- An instruction moves the line on by the room that it takes. -/
theorem Step.advances (h : Step fonts p i (.ok ()) q) :
    SameBlock p q ∧ q.reach = p.reach + advance p.padding i := by
  have hblock := sameBlock_flush fonts p
  have hreach := reach_flush fonts p
  have hlink (h : advance p.padding i = 0) (hq : q.reach = (p.flush fonts).reach) :
      q.reach = p.reach + advance p.padding i := by rw [hq, hreach, h, add_zero]
  cases h with
  | text hkind => exact ⟨sameBlock_addText fonts p i _, reach_addText hkind p⟩
  | gap hgap =>
    have hrun : ({ p.flush fonts with x := (p.flush fonts).x + i.width } : Pen Rat).run = none :=
      run_flush fonts p
    refine ⟨hblock.write _ _ _ _ _ _ _ _ _, ?_⟩
    rw [reach_of_run hrun, advance_gap hgap, (sameLine_flush fonts p).x]
  | linkStart hkind =>
    exact ⟨hblock.write _ _ _ _ _ _ _ _ _, hlink (by simp [advance, hkind]) rfl⟩
  | @linkEnd link links hkind =>
    obtain ⟨canvas, hcanvas⟩ := annotateAll_cases (p.flush fonts) [link]
    rw [hcanvas] at hlink ⊢
    exact ⟨hblock.write _ _ _ _ _ _ _ _ _, hlink (by simp [advance, hkind]) rfl⟩
  | noLink hkind => exact ⟨hblock, hlink (by simp [advance, hkind]) rfl⟩
  | plain hplain =>
    rw [advance_plain hplain, add_zero]
    exact ⟨.refl p, rfl⟩

end

end Pen
end Drawing
end Galley
