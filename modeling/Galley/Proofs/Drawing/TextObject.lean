import Galley.Proofs.Outcome
import Galley.Proofs.Drawing.Replay
import Galley.Proofs.Paragraph.Instruction

/-
The text object of a block.

An instruction shows the run that it ends, a line shows all that is on it, and so the operators of
a block go through all the texts of its lines, each under its own font, colour and rise
(`draw_replays`).
-/

namespace Galley
namespace Drawing

open Font Paragraph Pdf Style

variable {α : Type} [Scalar α]

namespace Pen

section

variable {fonts : FontService α} {script left : List (Shown α)} {p q : Pen α}

/-! ## Instructions -/

theorem Follows.annotate (h : p.Follows fonts script left) (link : OpenLink α) :
    (p.annotate link).Follows fonts script left := by
  unfold Pen.annotate
  split
  · exact h
  · exact h.congr (Canvas.fontKeys_addLink _ _ _) rfl rfl

theorem frame_annotate (p : Pen α) (link : OpenLink α) : Frame p (p.annotate link) := by
  unfold Pen.annotate
  split
  · exact ⟨rfl, rfl⟩
  · exact ⟨rfl, rfl⟩

theorem Follows.addAnchor {i : Instruction α} {anchor : Option String}
    (h : p.Follows fonts script left) (hq : p.addAnchor i anchor = .ok q) :
    q.Follows fonts script left ∧ Frame p q := by
  unfold Pen.addAnchor at hq
  split at hq
  · cases hq
    exact ⟨h, rfl, rfl⟩
  · obtain ⟨⟨label, view⟩, -, rfl⟩ := exists_of_map_ok hq
    exact ⟨h.congr (Canvas.fontKeys_addDestination _ _ _) rfl rfl, rfl, rfl⟩

theorem Follows.addText {i : Instruction α} {content : String} (hkind : i.kind = .text content)
    (h : p.Follows fonts script
      ((joinRun p.run i).1.toList.flatMap (shownOf fonts p.padding) ++ left))
    (hrun : p.Awaits) :
    (p.addText fonts i content).Follows fonts script left ∧
      (p.addText fonts i content).run = (joinRun p.run i).2 ∧
      (p.addText fonts i content).padding = p.padding := by
  unfold joinRun at h ⊢
  rw [hkind] at h ⊢
  dsimp only at h ⊢
  unfold Pen.addText
  cases hwaits : p.run with
  | none =>
    rw [hwaits] at h
    have hflush : (p.flush fonts).Follows fonts script left := by
      rw [flush_none hwaits]
      exact h
    exact ⟨hflush, rfl, (frame_flush fonts p).padding⟩
  | some run =>
    rw [hwaits] at h
    by_cases hserial : run.state.serial = i.state.serial
    · rw [Option.filter_some_pos (by simpa using hserial)] at h ⊢
      dsimp only
      rw [if_pos hserial]
      exact ⟨h, rfl, rfl⟩
    · rw [Option.filter_some_neg (by simpa using hserial)] at h ⊢
      dsimp only
      rw [if_neg hserial]
      rw [← hwaits] at h
      exact ⟨h.flush hrun, rfl, (frame_flush fonts p).padding⟩

/-- An instruction shows the run that it ends, and leaves what waits behind it. -/
theorem Follows.drawInstruction {i : Instruction α} {r : Except Error Unit}
    (h : p.Follows fonts script
      ((joinRun p.run i).1.toList.flatMap (shownOf fonts p.padding) ++ left))
    (hrun : p.Awaits) (hq : p.drawInstruction fonts i = (r, q)) :
    q.Follows fonts script left ∧
      (r = .ok () → q.run = (joinRun p.run i).2 ∧ q.padding = p.padding) := by
  unfold Pen.drawInstruction at hq
  cases hkind : i.kind with
  | text content =>
    rw [hkind] at hq
    cases hq
    obtain ⟨hfollows, hwaits, hpadding⟩ := h.addText hkind hrun
    exact ⟨hfollows, fun _ => ⟨hwaits, hpadding⟩⟩
  | strut width | paragraphStart indent =>
    unfold joinRun at h ⊢
    rw [hkind] at hq h ⊢
    cases hq
    exact ⟨h.flush hrun, fun _ => ⟨(frame_flush fonts p).run, (frame_flush fonts p).padding⟩⟩
  | linkStart anchor target =>
    unfold joinRun at h ⊢
    rw [hkind] at hq h ⊢
    dsimp only at hq h ⊢
    split at hq
    · cases hq
      exact ⟨h.flush hrun, fun hr => by cases hr⟩
    · next anchored hanchor =>
      cases hq
      obtain ⟨hfollows, hframe⟩ := (h.flush hrun).addAnchor hanchor
      have hboth := (frame_flush fonts p).trans hframe
      exact ⟨hfollows, fun _ => ⟨hboth.run, hboth.padding⟩⟩
  | linkEnd =>
    unfold joinRun at h ⊢
    rw [hkind] at hq h ⊢
    dsimp only at hq h ⊢
    have hflush := frame_flush fonts p
    split at hq
    · cases hq
      exact ⟨h.flush hrun, fun _ => ⟨hflush.run, hflush.padding⟩⟩
    · next link links hlinks =>
      cases hq
      cases link with
      | none => exact ⟨h.flush hrun, fun _ => ⟨hflush.run, hflush.padding⟩⟩
      | some link =>
        have hboth := hflush.trans (frame_annotate _ link)
        exact ⟨(h.flush hrun).annotate link, fun _ => ⟨hboth.run, hboth.padding⟩⟩
  | tagOpen _ | tagClose _ | lineBreak | pageBreak | paragraphEnd =>
    unfold joinRun at h ⊢
    rw [hkind] at hq h ⊢
    cases hq
    exact ⟨h, fun _ => ⟨rfl, rfl⟩⟩

theorem awaits_of_joinRun {i : Instruction α} (hrun : p.Awaits) (hi : Definite i.state)
    (hq : q.run = (joinRun p.run i).2) : q.Awaits := by
  intro run hwaits
  rw [hq] at hwaits
  exact state_joinRun hrun hi run hwaits

theorem Follows.drawInstructions {items : List (Instruction α)} {r : Except Error Unit}
    (h : p.Follows fonts script
      ((runsFrom p.run items).flatMap (shownOf fonts p.padding) ++ left))
    (hrun : p.Awaits) (hitems : ∀ i ∈ items, Definite i.state)
    (hq : p.drawInstructions fonts items = (r, q)) :
    ∃ more, q.Follows fonts script more ∧
      (r = .ok () → q.Awaits ∧
        more = q.run.toList.flatMap (shownOf fonts q.padding) ++ left) := by
  induction items generalizing p with
  | nil =>
    cases hq
    exact ⟨_, h, fun _ => ⟨hrun, rfl⟩⟩
  | cons i items ih =>
    rw [runsFrom, List.flatMap_append, List.append_assoc] at h
    rw [Pen.drawInstructions] at hq
    split at hq
    · next e next hstep =>
      cases hq
      exact ⟨_, (h.drawInstruction hrun hstep).1, fun hr => by cases hr⟩
    · next next hstep =>
      obtain ⟨hfollows, hnext⟩ := h.drawInstruction hrun hstep
      obtain ⟨hwaits, hpadding⟩ := hnext rfl
      rw [← hwaits, ← hpadding] at hfollows
      exact ih hfollows (awaits_of_joinRun hrun (hitems i List.mem_cons_self) hwaits)
        (fun j hj => hitems j (List.mem_cons_of_mem i hj)) hq

/-! ## Lines -/

theorem Follows.startLine (h : p.Follows fonts script left) (line : Line α)
    (baseline offset padding : α) :
    (p.startLine line baseline offset padding).Follows fonts script left := by
  have hmoved : (p.emit (.move (offset - p.lastX) (baseline - p.lastY))).Follows fonts script
      left := fun keys hkeys => (h keys hkeys).concat (.move _ _ _)
  exact hmoved.congr rfl rfl rfl

/-- The links that are still open get their rectangles at the end of a line. -/
def annotateAll (p : Pen α) (links : List (Option (OpenLink α))) : Pen α :=
  links.foldl (fun p link =>
    match link with
    | some link => p.annotate link
    | none => p) p

theorem Follows.annotateAll (h : p.Follows fonts script left)
    (links : List (Option (OpenLink α))) : (p.annotateAll links).Follows fonts script left := by
  induction links generalizing p with
  | nil => exact h
  | cons link links ih =>
    cases link with
    | none => exact ih h
    | some link => exact ih (h.annotate link)

theorem frame_annotateAll (p : Pen α) (links : List (Option (OpenLink α))) :
    Frame p (p.annotateAll links) := by
  induction links generalizing p with
  | nil => exact ⟨rfl, rfl⟩
  | cons link links ih =>
    cases link with
    | none => exact ih p
    | some link => exact (frame_annotate p link).trans (ih _)

/-- A line shows all that is on it, and no text waits behind it. -/
theorem Follows.drawLine {common : TextAlign} {width baseline : α} {line : Line α}
    {r : Except Error Unit}
    (h : p.Follows fonts script (shownOn fonts common width line ++ left)) (hrun : p.run = none)
    (hitems : ∀ i ∈ line.instructions, Definite i.state)
    (hq : p.drawLine fonts common width line baseline = (r, q)) :
    ∃ more, q.Follows fonts script more ∧ (r = .ok () → q.run = none ∧ more = left) := by
  unfold shownOn at h
  unfold Pen.drawLine at hq
  cases hplace : placeLine (alignOf common line) width line with
  | mk offset padding =>
    rw [hplace] at h hq
    dsimp only at h hq
    have hstart : (p.startLine line baseline offset padding).run = none := hrun
    have hready : (p.startLine line baseline offset padding).Follows fonts script
        ((runsFrom (p.startLine line baseline offset padding).run line.instructions).flatMap
          (shownOf fonts (p.startLine line baseline offset padding).padding) ++ left) := by
      rw [hstart]
      exact h.startLine line baseline offset padding
    have hawaits : (p.startLine line baseline offset padding).Awaits := by
      intro run hwaits
      rw [hstart] at hwaits
      cases hwaits
    obtain ⟨more, hmore, hdone⟩ := hready.drawInstructions hawaits hitems rfl
    split at hq
    · next e drawn hdrawn =>
      cases hq
      rw [hdrawn] at hmore
      exact ⟨more, hmore, fun hr => by cases hr⟩
    · next drawn hdrawn =>
      cases hq
      rw [hdrawn] at hmore hdone
      obtain ⟨hawaits, rfl⟩ := hdone rfl
      refine ⟨left, (hmore.flush hawaits).annotateAll _, fun _ => ⟨?_, rfl⟩⟩
      exact ((frame_flush fonts drawn).trans (frame_annotateAll _ _)).run

theorem Follows.drawLines {options : DrawOptions α} {width top : α} {lines : List (Line α)}
    {r : Except Error α}
    (h : p.Follows fonts script
      (lines.flatMap (shownOn fonts options.align width) ++ left)) (hrun : p.run = none)
    (hitems : ∀ line ∈ lines, ∀ i ∈ line.instructions, Definite i.state)
    (hq : p.drawLines fonts options width top lines = (r, q)) :
    ∃ more, q.Follows fonts script more ∧ (∀ used, r = .ok used → more = left) := by
  induction lines generalizing p top with
  | nil =>
    cases hq
    exact ⟨left, h, fun _ _ => rfl⟩
  | cons line lines ih =>
    rw [List.flatMap_cons, List.append_assoc] at h
    rw [Pen.drawLines] at hq
    split at hq
    · next e drawn hdrawn =>
      cases hq
      obtain ⟨more, hmore, -⟩ := h.drawLine hrun (hitems line List.mem_cons_self) hdrawn
      exact ⟨more, hmore, fun used hr => by cases hr⟩
    · next drawn hdrawn =>
      obtain ⟨more, hmore, hdone⟩ := h.drawLine hrun (hitems line List.mem_cons_self) hdrawn
      obtain ⟨hnone, rfl⟩ := hdone rfl
      exact ih hmore hnone (fun l hl => hitems l (List.mem_cons_of_mem line hl)) hq

end

end Pen

/-! ## Text objects -/

namespace DrawContext

/-- The operators of the text object that a block is drawn in. -/
def textObject (c : DrawContext α) (fonts : FontService α) (canvas : Canvas α)
    (lines : List (Line α)) (x y width : α) : List (TextOp α) :=
  ((c.start canvas x y).drawLines fonts c.options width 0 lines).2.ops

/-- The resource that the canvas names for a font when the block is drawn. -/
def resourceAfter (c : DrawContext α) (fonts : FontService α) (canvas : Canvas α)
    (lines : List (Line α)) (x y width : α) (font : FontHandle) (subset : Nat) : String :=
  ((c.draw fonts canvas lines x y width).2.2.fontResource (fonts.baseName font) subset
    (fonts.embedded font)).1

section

variable {c : DrawContext α} {fonts : FontService α} {canvas : Canvas α} {lines : List (Line α)}
  {x y width : α}

theorem fontKeys_draw :
    (c.draw fonts canvas lines x y width).2.2.fontKeys =
      ((c.start canvas x y).drawLines fonts c.options width 0 lines).2.canvas.fontKeys := by
  unfold draw
  by_cases hempty : lines = []
  · subst hempty
    rfl
  · rw [if_neg (by simpa using hempty)]
    split
    · next e p hp => rw [hp]
    · next top p hp =>
      rw [hp]
      dsimp only
      split
      · exact Canvas.fontKeys_addContent _ _
      · rw [Canvas.fontKeys_addContent, Canvas.fontKeys_addContent]

theorem result_draw (hlines : lines ≠ []) {used : α}
    (h : (c.draw fonts canvas lines x y width).1 = .ok used) :
    ∃ top p, (c.start canvas x y).drawLines fonts c.options width 0 lines = (.ok top, p) ∧
      ∃ graphics, (c.draw fonts canvas lines x y width).2.2.current.content =
        p.canvas.current.content ++ writeTextObject p.ops ++ graphics := by
  unfold draw at h ⊢
  rw [if_neg (by simpa using hlines)] at h ⊢
  split at h
  · cases h
  · next top p hp =>
    refine ⟨top, p, hp, ?_⟩
    dsimp only
    split
    · exact ⟨"", by rw [String.append_empty]; rfl⟩
    · exact ⟨p.writeDecorations, rfl⟩

theorem follows_start (fonts : FontService α) (canvas : Canvas α) (x y : α)
    (script : List (Shown α)) :
    (c.start canvas x y).Follows fonts script script := by
  intro keys _
  have hnil : Replays (resourceIn fonts keys) { left := script } ([] : List (TextOp α))
      { left := script } := .nil _
  unfold start
  cases c.options.rotation with
  | none =>
    cases c.options.renderMode with
    | none => exact hnil.concat (.move _ _ _)
    | some mode => exact (hnil.concat (.move _ _ _)).concat (.renderMode _ _)
  | some rotation =>
    cases c.options.renderMode with
    | none => exact hnil.concat (.matrix _ _ _ _ _ _ _)
    | some mode => exact (hnil.concat (.matrix _ _ _ _ _ _ _)).concat (.renderMode _ _)

end

/-- The operators of a block can be gone over again, with the texts that its lines show: each font,
colour and rise that is written differs from the last in the text object, and each text is shown
under its own.  If the block is drawn, all of its texts are shown, and its operators are what the
page gets.  Texts are joined to runs by the serials of their styles, so on a line whose serials tell
styles apart the runs have the texts of the line, each under the style of its instruction. -/
theorem draw_replays {c : DrawContext α} {fonts : FontService α} {canvas : Canvas α}
    {lines : List (Line α)} {x y width : α}
    (hlines : ∀ line ∈ lines, ∀ i ∈ line.instructions, Definite i.state) :
    ∃ r : Replay α,
      Replays (c.resourceAfter fonts canvas lines x y width)
        { left := lines.flatMap (shownOn fonts c.options.align width) }
        (c.textObject fonts canvas lines x y width) r ∧
      (∀ used, (c.draw fonts canvas lines x y width).1 = .ok used →
        r.left = [] ∧ (lines ≠ [] → ∃ before graphics,
          (c.draw fonts canvas lines x y width).2.2.current.content =
            before ++ writeTextObject (c.textObject fonts canvas lines x y width) ++
              graphics)) ∧
      ∀ line ∈ lines, Instruction.ToldApart line.instructions →
        (runsFrom none line.instructions).flatMap (Run.texts id) =
          line.instructions.filterMap (ownText id) := by
  have hstart : (c.start canvas x y).Follows fonts
      (lines.flatMap (shownOn fonts c.options.align width))
      (lines.flatMap (shownOn fonts c.options.align width) ++ []) := by
    rw [List.append_nil]
    exact follows_start fonts canvas x y _
  obtain ⟨more, hmore, hdone⟩ := hstart.drawLines rfl hlines rfl
  -- of all canvases that go on from the last one, take the last one itself
  have hresource : c.resourceAfter fonts canvas lines x y width = resourceIn fonts
      ((c.start canvas x y).drawLines fonts c.options width 0 lines).2.canvas.fontKeys := by
    funext font subset
    unfold resourceAfter
    rw [fontResource_eq_resourceIn, fontKeys_draw]
  refine ⟨_, by rw [hresource]; exact hmore _ List.prefix_rfl, ?_,
    fun line _ htold => styles_runsFrom htold⟩
  intro used hused
  by_cases hempty : lines = []
  · subst hempty
    exact ⟨hdone 0 rfl, fun h => absurd rfl h⟩
  · obtain ⟨top, p, hp, graphics, hcontent⟩ := result_draw hempty hused
    refine ⟨hdone top (by rw [hp]), fun _ => ⟨p.canvas.current.content, graphics, ?_⟩⟩
    unfold textObject
    rw [hcontent, hp]

end DrawContext

/-! ## Two words of different colours -/

namespace Sample

def red : StyleState Rat := { Sample.state with serial := 1, color := ⟨1, 0, 0⟩ }

def twoColors : List (Line Rat) :=
  [.ofInstructions [Sample.run "aa", .ofText "b" red Sample.fonts] true]

def context : DrawContext Rat :=
  { options := { align := .left, spacing := 0, rotation := none, renderMode := none } }

end Sample

theorem definite_rat (state : StyleState Rat) : Definite state :=
  ⟨Scalar.isUndefined_rat _, Scalar.isUndefined_rat _, Scalar.isUndefined_rat _,
    Scalar.isUndefined_rat _, Scalar.isUndefined_rat _⟩

/-- Both words are drawn, each under its own colour. -/
theorem draw_replays_colors :
    ∃ r : Replay Rat,
      Replays (Sample.context.resourceAfter Sample.fonts .standard Sample.twoColors 0 0 60)
        { left := Sample.twoColors.flatMap (shownOn Sample.fonts .left 60) }
        (Sample.context.textObject Sample.fonts .standard Sample.twoColors 0 0 60) r ∧
      r.left = [] ∧ (Sample.twoColors.flatMap (shownOn Sample.fonts .left 60)).length = 2 := by
  obtain ⟨r, hreplays, hdone, -⟩ := DrawContext.draw_replays (c := Sample.context)
    (fun _ _ i _ => definite_rat i.state)
  have hdrawn : (Sample.context.draw Sample.fonts .standard Sample.twoColors 0 0
      60).1.toOption.isSome = true := by decide +kernel
  obtain ⟨used, hused⟩ := Option.isSome_iff_exists.1 hdrawn
  exact ⟨r, hreplays, (hdone used (ok_of_toOption hused)).1, by decide +kernel⟩

end Drawing
end Galley
