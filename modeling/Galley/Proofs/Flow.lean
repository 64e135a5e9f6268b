import Galley.Proofs.Drawing.Filler
import Galley.Proofs.Drawing.SamePage
import Galley.Proofs.Drawing.TextObject
import Galley.Proofs.Options

/-
Text that flows through columns and pages.

A column takes a batch of lines and draws it.  Neither can fail in a text that is read to its end
and whose anchors name places, and a batch takes the next of the lines that are left
(`Formatter.drawColumn_ok`).  So the flow comes to its end with every line drawn, once and in its
order (`Formatter.paginate_draws_lines`).
-/

namespace Galley

open Font Paragraph Pdf Style

variable {α : Type} [Scalar α]

/-! ## Drawing that does not fail -/

namespace Pdf

omit [Scalar α] in
/-- Whether an anchor names a place does not depend on where the place is. -/
theorem View.ofAnchor_ok {name : String} {left top x y : α} {named : String × View α}
    (h : View.ofAnchor name left top = .ok named) : ∃ other, View.ofAnchor name x y = .ok other := by
  unfold View.ofAnchor at h ⊢
  dsimp only at h ⊢
  split
  · exact ⟨_, rfl⟩
  · next directive label hsplit =>
    rw [hsplit] at h
    dsimp only at h
    split
    · exact ⟨_, rfl⟩
    · exact ⟨_, rfl⟩
    · exact ⟨_, rfl⟩
    · exact ⟨_, rfl⟩
    · exact ⟨_, rfl⟩
    · exact ⟨_, rfl⟩
    · split
      · split
        · exact ⟨_, rfl⟩
        · next hbad =>
          -- the same factor cannot be read at the other place
          simp only [hbad] at h
          cases h
      · exact ⟨_, rfl⟩

end Pdf

namespace Drawing

/-- If the instruction is an anchor, then it names a place. -/
def HasView (i : Instruction α) : Prop :=
  ∀ anchor target, i.kind = .linkStart (some anchor) target →
    ∃ named, View.ofAnchor anchor (0 : α) 0 = .ok named

namespace Pen

variable {p : Pen α} {i : Instruction α}

theorem addAnchor_ok {anchor : Option String} {target : Option String}
    (hkind : i.kind = .linkStart anchor target) (h : HasView i) (p : Pen α) :
    ∃ q, p.addAnchor i anchor = .ok q := by
  cases anchor with
  | none => exact ⟨p, rfl⟩
  | some anchor =>
    obtain ⟨named, hnamed⟩ := h anchor target hkind
    cases hplace : p.toPage p.x (p.baseline + i.ascent) with
    | mk left top =>
      obtain ⟨⟨label, view⟩, hview⟩ := View.ofAnchor_ok hnamed (x := left) (y := top)
      refine ⟨{ p with canvas := p.canvas.addDestination label view }, ?_⟩
      unfold addAnchor
      rw [hplace]
      dsimp only
      rw [hview]
      rfl

theorem drawInstruction_ok (fonts : FontService α) (h : HasView i) (p : Pen α) :
    ∃ q, p.drawInstruction fonts i = (.ok (), q) := by
  unfold drawInstruction
  cases hkind : i.kind with
  | text _ | strut _ | paragraphStart _ => exact ⟨_, rfl⟩
  | linkStart anchor target =>
    obtain ⟨q, hq⟩ := addAnchor_ok hkind h (p.flush fonts)
    dsimp only
    rw [hq]
    exact ⟨_, rfl⟩
  | linkEnd =>
    dsimp only
    split
    · exact ⟨_, rfl⟩
    · exact ⟨_, rfl⟩
  | tagOpen _ | tagClose _ | lineBreak | pageBreak | paragraphEnd => exact ⟨p, rfl⟩

theorem drawInstructions_ok (fonts : FontService α) {items : List (Instruction α)}
    (h : ∀ i ∈ items, HasView i) (p : Pen α) :
    ∃ q, p.drawInstructions fonts items = (.ok (), q) := by
  induction items generalizing p with
  | nil => exact ⟨p, rfl⟩
  | cons i items ih =>
    obtain ⟨hi, hitems⟩ := List.forall_mem_cons.1 h
    obtain ⟨q, hq⟩ := drawInstruction_ok fonts hi p
    rw [drawInstructions, hq]
    exact ih hitems q

theorem drawLine_ok (fonts : FontService α) (common : TextAlign) (width : α) {line : Line α}
    (h : ∀ i ∈ line.instructions, HasView i) (p : Pen α) (baseline : α) :
    ∃ q, p.drawLine fonts common width line baseline = (.ok (), q) := by
  unfold drawLine
  cases hplace : placeLine (alignOf common line) width line with
  | mk offset padding =>
    obtain ⟨q, hq⟩ := drawInstructions_ok fonts h (p.startLine line baseline offset padding)
    dsimp only
    rw [hq]
    exact ⟨_, rfl⟩

theorem drawLines_ok (fonts : FontService α) (options : DrawOptions α) (width : α)
    {lines : List (Line α)} (h : ∀ line ∈ lines, ∀ i ∈ line.instructions, HasView i)
    (p : Pen α) (top : α) :
    ∃ used q, p.drawLines fonts options width top lines = (.ok used, q) := by
  induction lines generalizing p top with
  | nil => exact ⟨top, p, rfl⟩
  | cons line lines ih =>
    obtain ⟨hline, hlines⟩ := List.forall_mem_cons.1 h
    obtain ⟨q, hq⟩ := drawLine_ok fonts options.align width hline p
      (top - line.height - line.descent)
    rw [drawLines, hq]
    exact ih hlines q (top - (line.height + options.spacing))

end Pen

theorem DrawContext.draw_ok (fonts : FontService α) {lines : List (Line α)}
    (h : ∀ line ∈ lines, ∀ i ∈ line.instructions, HasView i) (c : DrawContext α)
    (canvas : Canvas α) (x y width : α) :
    ∃ used d last, c.draw fonts canvas lines x y width = (.ok used, d, last) := by
  unfold draw
  by_cases hempty : lines.isEmpty = true
  · rw [if_pos hempty]
    exact ⟨0, c, canvas, rfl⟩
  · obtain ⟨top, p, hp⟩ := Pen.drawLines_ok fonts c.options width h (c.start canvas x y) 0
    rw [if_neg hempty, hp]
    exact ⟨_, _, _, rfl⟩

/-! ## Blocks on pages -/

/-- Blocks of lines are drawn one after the other, in columns of one width.  Between them pages may
be turned and the cursor may be set, and nothing else comes on the canvas. -/
inductive Draws (fonts : FontService α) (width : α) :
    DrawContext α → Canvas α → List (List (Line α)) → DrawContext α → Canvas α → Prop where
  | nil (c : DrawContext α) (canvas : Canvas α) : Draws fonts width c canvas [] c canvas
  | block {c d e : DrawContext α} {canvas next last : Canvas α} {lines : List (Line α)}
      {left top used : α} {blocks : List (List (Line α))}
      (h : c.draw fonts canvas lines left top width = (.ok used, d, next))
      (hmore : Draws fonts width d next blocks e last) :
      Draws fonts width c canvas (lines :: blocks) e last
  | turnPage {c d : DrawContext α} {canvas last : Canvas α} {blocks : List (List (Line α))}
      (hmore : Draws fonts width c canvas.startPage blocks d last) :
      Draws fonts width c canvas blocks d last
  | setY {c d : DrawContext α} {canvas last : Canvas α} {blocks : List (List (Line α))} {y : α}
      (hmore : Draws fonts width c (canvas.setY y) blocks d last) :
      Draws fonts width c canvas blocks d last

end Drawing

open Drawing

namespace Formatter

variable {f g k : Formatter α} {canvas : Canvas α} {flow : Flow α}

theorem drawColumn_ok (h : f.typesetter.Feeds HasView) (canvas : Canvas α) (flow : Flow α) :
    ∃ batch rest flow' k last, f.drawColumn canvas flow = (.ok flow', k, last) ∧
      k.fonts = f.fonts ∧ k.options = f.options ∧ k.typesetter.Feeds HasView ∧
      last.bounds = canvas.bounds ∧
      (f.typesetter.lines (f.columnWidth canvas.bounds)).1 = .ok (batch ++ rest) ∧
      (k.typesetter.lines (f.columnWidth canvas.bounds)).1 = .ok rest ∧
      ∃ left top used, f.context.draw f.fonts canvas batch left top (f.columnWidth canvas.bounds) =
        (.ok used, k.context, last) := by
  obtain ⟨batch, rest, c, hfill, hc, hview, hlines, hbatch⟩ := h.fill (f.columnWidth canvas.bounds)
    (flow.top - canvas.bounds.bottom) f.options.spacing
  obtain ⟨used, d, last, hdraw⟩ := DrawContext.draw_ok f.fonts hview f.context canvas
    (f.columnLeft canvas.bounds flow.drawn) flow.top (f.columnWidth canvas.bounds)
  have hfilled : f.fill (f.columnWidth canvas.bounds) (flow.top - canvas.bounds.bottom) =
      (.ok batch, { f with typesetter := c }) := by
    unfold fill
    rw [hfill]
  have hdrawn : Formatter.draw { f with typesetter := c } batch
      (Formatter.columnLeft { f with typesetter := c } canvas.bounds flow.drawn) flow.top
      (f.columnWidth canvas.bounds) canvas =
      (.ok used, { f with typesetter := c, context := d }, last) := by
    rw [show Formatter.columnLeft { f with typesetter := c } canvas.bounds flow.drawn =
      f.columnLeft canvas.bounds flow.drawn from rfl]
    unfold Formatter.draw
    dsimp only
    rw [hdraw]
  refine ⟨batch, rest,
    { flow with
      drawn := flow.drawn + 1
      lowest := Scalar.smaller flow.lowest (flow.top - used) },
    { f with typesetter := c, context := d }, last, ?_, rfl, rfl, hc,
    (DrawContext.samePage_draw hdraw).bounds, hlines, hbatch.lines, _, _, _, hdraw⟩
  unfold drawColumn
  dsimp only
  rw [hfilled]
  dsimp only
  rw [hdrawn]

theorem bounds_turnPage (f : Formatter α) (canvas : Canvas α) (flow : Flow α) :
    (f.turnPage canvas flow).1.bounds = canvas.bounds := by
  unfold turnPage
  split
  · rfl
  · rfl

theorem draws_turnPage {fonts : FontService α} {width : α} {c d : DrawContext α}
    {last : Canvas α} {blocks : List (List (Line α))} (f : Formatter α) (canvas : Canvas α)
    (flow : Flow α) (h : Draws fonts width c (f.turnPage canvas flow).1 blocks d last) :
    Draws fonts width c canvas blocks d last := by
  unfold turnPage at h
  split at h
  · exact h
  · exact .turnPage h

theorem columnWidth_congr (h : k.options = f.options) (bounds : Bounds α) :
    k.columnWidth bounds = f.columnWidth bounds := by
  unfold columnWidth columns
  rw [h]

theorem asked (h : f.typesetter.Feeds HasView) (width : α) :
    ∃ r c, f.done = (.ok r, { f with typesetter := c }) ∧ c.Feeds HasView ∧
      c.lines width = f.typesetter.lines width ∧ (r = true → c.Spent) := by
  obtain ⟨r, c, hdone, hc, hlines, hspent⟩ := h.asked width
  refine ⟨r, c, ?_, hc, hlines, hspent⟩
  unfold done
  rw [hdone]

/-- The flow comes to its end, and draws what is left in its order. -/
theorem flowOn_draws {left : List (Line α)} (h : f.typesetter.Feeds HasView) (canvas : Canvas α)
    (flow : Flow α)
    (hleft : (f.typesetter.lines (f.columnWidth canvas.bounds)).1 = .ok left) :
    ∃ g last blocks, f.flowOn canvas flow = (.ok (), g, last) ∧ g.typesetter.Spent ∧
      Draws f.fonts (f.columnWidth canvas.bounds) f.context canvas blocks g.context last ∧
      blocks.flatten = left := by
  -- from column to column `left` is what the earlier ones have not taken; the first and the third
  -- case are the two failures, and neither happens
  fun_induction flowOn f canvas flow generalizing left with
  | case1 f canvas flow e g hd =>
    obtain ⟨r, c, hdone, -⟩ := asked h (f.columnWidth canvas.bounds)
    rw [hd] at hdone
    cases hdone
  | case2 f canvas flow g hd =>
    obtain ⟨r, c, hdone, -, hlines, hspent⟩ := asked h (f.columnWidth canvas.bounds)
    rw [hd] at hdone
    cases hdone
    rw [← hlines, (hspent rfl).lines] at hleft
    cases hleft
    exact ⟨_, _, [], rfl, hspent rfl, .setY (.nil _ _), rfl⟩
  | case3 f canvas flow g hd e k last hc =>
    obtain ⟨r, c, hdone, hfeeds, -⟩ := asked h (f.columnWidth canvas.bounds)
    rw [hd] at hdone
    cases hdone
    obtain ⟨_, _, _, _, _, hdrawn, -⟩ := drawColumn_ok (f := { f with typesetter := c }) hfeeds
      (turnPage { f with typesetter := c } canvas flow).1
      (turnPage { f with typesetter := c } canvas flow).2
    rw [hc] at hdrawn
    cases hdrawn
  | case4 f canvas flow g hd flow' k last hc _ ih =>
    obtain ⟨r, c, hdone, hfeeds, hsame, -⟩ := asked h (f.columnWidth canvas.bounds)
    rw [hd] at hdone
    cases hdone
    obtain ⟨batch, rest, _, _, _, hdrawn, hfonts, hoptions, hk, hbounds, hlines, hrest, x, y,
      used, hdraw⟩ := drawColumn_ok (f := { f with typesetter := c }) hfeeds
      (turnPage { f with typesetter := c } canvas flow).1
      (turnPage { f with typesetter := c } canvas flow).2
    rw [hc] at hdrawn
    cases hdrawn
    rw [bounds_turnPage] at hbounds hlines hrest hdraw
    have hwidth : k.columnWidth canvas.bounds = f.columnWidth canvas.bounds :=
      columnWidth_congr hoptions canvas.bounds
    have hset : (if flow'.drawn < k.columns then last else last.setY flow'.lowest).bounds =
        canvas.bounds := by
      rw [← hbounds]
      split
      · rfl
      · rfl
    rw [dite_eq_ite, hset, hwidth] at ih
    obtain ⟨g, final, blocks, hflow, hspent, hdraws, hblocks⟩ := ih hk hrest
    rw [hfonts] at hdraws
    have hnext : Draws f.fonts (f.columnWidth canvas.bounds) k.context last blocks g.context
        final := by
      split at hdraws
      · exact hdraws
      · exact .setY hdraws
    refine ⟨g, final, batch :: blocks, hflow, hspent, ?_, ?_⟩
    · exact draws_turnPage { f with typesetter := c } canvas flow (.block hdraw hnext)
    · rw [← hsame] at hleft
      rw [List.flatten_cons, hblocks]
      exact Except.ok.inj (hlines.symm.trans hleft)

end Formatter

/-! ## A whole text -/

/-- A text that is read to its end and whose anchors name places flows through the columns of any
canvas: the flow ends, nothing is left behind, and the blocks that it draws are the lines of the
text in a column of that width, cut up. -/
theorem paginate_draws_lines {text : String} {options : Options α} {fonts : FontService α}
    {registry : Registry α} {style : RootStyle α} {out : List (Handed α)} {q : Parser α}
    (hvalid : options.validate = .ok ()) (hcorner : options.corner = none)
    (hstyle : options.rootStyle = .ok style)
    (hread : (parserOf text options style fonts registry).handouts = (.ok out, q))
    (hanchors : ∀ j ∈ out, HasView j.item) (canvas : Canvas α) :
    ∃ f g last blocks, Formatter.ofText text options fonts registry = .ok f ∧
      f.paginate canvas = (.ok (), g, last) ∧ g.done.1 = .ok true ∧
      Draws fonts (f.columnWidth canvas.bounds) f.context canvas blocks g.context last ∧
      layout text (f.columnWidth canvas.bounds) options fonts registry = .ok blocks.flatten := by
  obtain ⟨-, -, -, ⟨drawing, hdrawing⟩, -⟩ := of_validate hvalid
  have hf := ofText_ok text hvalid hstyle hdrawing fonts registry
  have hfeeds : (formatterOf text options style drawing fonts registry).typesetter.Feeds
      HasView := by
    refine Typesetter.feeds_ofText hread _ _ _ hanchors ?_
    intro i _ room anchor target hkind
    cases hkind
  obtain ⟨left, hleft, -⟩ := hfeeds.lines_ok
    ((formatterOf text options style drawing fonts registry).columnWidth canvas.bounds)
  obtain ⟨g, last, blocks, hflow, hspent, hdraws, hblocks⟩ :=
    Formatter.flowOn_draws hfeeds canvas (.start canvas) hleft
  refine ⟨_, g, last, blocks, hf, ?_, ?_, hdraws, ?_⟩
  · unfold Formatter.paginate
    rw [show (formatterOf text options style drawing fonts registry).options.corner = none from
      hcorner]
    exact hflow
  · show g.typesetter.done.1 = _
    exact hspent.done
  · rw [layout_formatterOf hf, hblocks]
    exact hleft

/-! ## An anchor in columns without height -/

namespace Sample

def anchored : String := "aaa <a name='fith:x'>bbb</a>"

def twoColumns : Options Rat :=
  { Options.standard with fontFamily := "Courier", fontSize := 10, columns := 2 }

/-- A canvas with larger margins than it is high. -/
def lowCanvas : Canvas Rat := .ofSize 100 20 30

end Sample

/-- The kinds of what a text hands out. -/
def kindsOf (text : String) (options : Options Rat) : Option (List (Kind Rat)) := do
  let style ← options.rootStyle.toOption
  let out ← (parserOf text options style Paragraph.Sample.fonts .builtin).handouts.1.toOption
  return out.map fun j => j.item.kind

theorem exists_of_kindsOf {text : String} {options : Options Rat} {kinds : List (Kind Rat)}
    (h : kindsOf text options = some kinds) :
    ∃ style out q, options.rootStyle = .ok style ∧
      (parserOf text options style Paragraph.Sample.fonts .builtin).handouts = (.ok out, q) ∧
      out.map (fun j => j.item.kind) = kinds := by
  obtain ⟨style, hstyle, h⟩ := Option.bind_eq_some_iff.1 h
  obtain ⟨out, hout, h⟩ := Option.bind_eq_some_iff.1 h
  exact ⟨style, out, _, ok_of_toOption hstyle, Prod.ext (ok_of_toOption hout) rfl,
    Option.some.inj h⟩

theorem paginate_draws_anchored :
    ∃ style out q f g last blocks, Sample.twoColumns.rootStyle = .ok style ∧
      (parserOf Sample.anchored Sample.twoColumns style Paragraph.Sample.fonts
        .builtin).handouts = (.ok out, q) ∧
      (∀ j ∈ out, HasView j.item) ∧
      Formatter.ofText Sample.anchored Sample.twoColumns Paragraph.Sample.fonts .builtin =
        .ok f ∧
      f.paginate Sample.lowCanvas = (.ok (), g, last) ∧ g.done.1 = .ok true ∧
      Draws Paragraph.Sample.fonts (f.columnWidth Sample.lowCanvas.bounds) f.context
        Sample.lowCanvas blocks g.context last ∧
      layout Sample.anchored (f.columnWidth Sample.lowCanvas.bounds) Sample.twoColumns
        Paragraph.Sample.fonts .builtin = .ok blocks.flatten := by
  have hkinds : kindsOf Sample.anchored Sample.twoColumns =
      some [.text "aaa", .text " ", .linkStart (some "fith:x") none, .text "bbb", .linkEnd] := by
    decide +kernel
  obtain ⟨style, out, q, hstyle, hread, hlist⟩ := exists_of_kindsOf hkinds
  have hanchors : ∀ j ∈ out, HasView j.item := by
    intro j hj anchor target hkind
    have hmem : j.item.kind ∈ out.map (fun j => j.item.kind) := List.mem_map_of_mem hj
    rw [hlist, hkind] at hmem
    obtain ⟨rfl, rfl⟩ : anchor = "fith:x" ∧ target = none := by simpa using hmem
    have hview : (View.ofAnchor "fith:x" (0 : Rat) 0).toOption.isSome = true := by decide +kernel
    obtain ⟨named, hnamed⟩ := Option.isSome_iff_exists.1 hview
    exact ⟨named, ok_of_toOption hnamed⟩
  obtain ⟨f, g, last, blocks, hf, hresult⟩ := paginate_draws_lines
    (show Sample.twoColumns.validate = .ok () from ok_of_toOption (by decide +kernel)) rfl hstyle
    hread hanchors Sample.lowCanvas
  exact ⟨style, out, q, f, g, last, blocks, hstyle, hread, hanchors, hf, hresult⟩

end Galley
