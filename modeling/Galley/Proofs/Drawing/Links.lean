import Galley.Proofs.Drawing.LinkSpans
import Galley.Proofs.Drawing.Places

/-
A link gets one rectangle on each line that it is open on.

Links may stay open at the end of a line and of a block.  The pen keeps those that are open, each
with the point where it starts on the current line; these are the links that a walk along the
stream of all instructions has open there (`Pen.OnLine`).  On each line the pen sends the parts of
the links that end on it and of those left open behind it.  All other links have no part of the
line, so it sends what each link has of it (`Drawn.rect?`), and over all lines that are drawn one
block after the other what is sent are the parts of all links (`draw_links`).
-/

namespace Galley
namespace Drawing

open Font Paragraph Pdf Style

/-! ## Lines on their pages -/

/-- Lines that are drawn in one go: their corner, and the width of their column. -/
structure Block where
  lines : List (Line Rat)
  x : Rat
  y : Rat
  width : Rat

/-- A line on its page. -/
structure Drawn where
  line : Line Rat
  row : Row
  /-- Corner of its block. -/
  x : Rat
  y : Rat
  /-- Number of its first instruction among those of all lines. -/
  start : Nat

namespace Drawn

/-- Where the line has come to behind its first `k` instructions, or at its end. -/
def xAt (d : Drawn) (k : Nat) : Rat :=
  d.row.offset + ((d.line.instructions.take k).map (advance d.row.padding)).sum

/-- The rectangle between two points of the line, unless they are next to each other. -/
def part (d : Drawn) (target : String) (left right : Rat) : Option (Link Rat) :=
  if Scalar.epsilon < right - left then
    some {
      rect := {
        x1 := d.x + left
        y1 := d.y + (d.row.y + min d.line.descent d.line.ascent)
        x2 := d.x + right
        y2 := d.y + (d.row.y + max d.line.descent d.line.ascent) }
      target }
  else none

/-- What a link has of the line: from its start, or from the start of the line if that comes later,
up to its end or that of the line.  It has nothing of lines that it is not open on. -/
def rect? (d : Drawn) (s : Span) : Option (Link Rat) :=
  s.target.bind fun target =>
    d.part target (d.xAt (s.first - d.start)) (d.xAt (s.last - d.start))

end Drawn

/-- The lines of a block below the lines `above`. -/
def drawnIn (options : DrawOptions Rat) (b : Block) :
    Nat → List (Line Rat) → List (Line Rat) → List Drawn
  | _, _, [] => []
  | start, above, line :: lines =>
    { line, row := rowOf options b.width above line, x := b.x, y := b.y, start } ::
      drawnIn options b (start + line.instructions.length) (above ++ [line]) lines

def Block.instructions (b : Block) : List (Instruction Rat) :=
  b.lines.flatMap Line.instructions

/-- The lines of all blocks, whose instructions are numbered from `start` on. -/
def drawnFrom (options : DrawOptions Rat) : Nat → List Block → List Drawn
  | _, [] => []
  | start, b :: blocks =>
    drawnIn options b start [] b.lines ++
      drawnFrom options (start + b.instructions.length) blocks

/-- All rectangles that lead to a target. -/
def annotations (c : Canvas Rat) : List (Link Rat) := c.pages.flatMap Page.links

/-- Blocks are drawn one after the other, each on some canvas, and none fails.  Each canvas is
given as it was before and as it is afterwards. -/
inductive DrawnInTurn (fonts : FontService Rat) :
    DrawContext Rat → List Block → List (Canvas Rat × Canvas Rat) → DrawContext Rat → Prop where
  | nil (c : DrawContext Rat) : DrawnInTurn fonts c [] [] c
  | block {c d e : DrawContext Rat} {b : Block} {canvas last : Canvas Rat} {used : Rat}
      {blocks : List Block} {canvases : List (Canvas Rat × Canvas Rat)}
      (h : c.draw fonts canvas b.lines b.x b.y b.width = (.ok used, d, last))
      (hmore : DrawnInTurn fonts d blocks canvases e) :
      DrawnInTurn fonts c (b :: blocks) ((canvas, last) :: canvases) e

/-! ## Parts of lines -/

namespace Drawn

variable {d : Drawn} {s : Span} {k : Nat}

theorem part_self (d : Drawn) (target : String) (x : Rat) : d.part target x x = none := by
  unfold part
  rw [sub_self, if_neg (not_lt.2 (le_of_lt Scalar.epsilon_pos))]

theorem xAt_zero (d : Drawn) : d.xAt 0 = d.row.offset := by simp [xAt]

theorem xAt_end (h : d.line.instructions.length ≤ k) :
    d.xAt k = d.xAt d.line.instructions.length := by
  unfold xAt
  rw [List.take_of_length_le h, List.take_length]

theorem xAt_succ {front rest : List (Instruction Rat)} {i : Instruction Rat}
    (h : d.line.instructions = front ++ i :: rest) :
    d.xAt (front.length + 1) = d.xAt front.length + advance d.row.padding i := by
  have hfront : d.line.instructions.take front.length = front := by
    rw [h, List.take_left]
  have hnext : d.line.instructions.take (front.length + 1) = front ++ [i] := by
    rw [h, List.append_cons, List.take_left' (by simp)]
  unfold xAt
  rw [hfront, hnext, List.map_append, List.sum_append, add_assoc]
  simp

theorem rect?_of_before (hfirst : s.first < d.start) (hlast : s.last < d.start) :
    d.rect? s = none := by
  unfold rect?
  rw [Nat.sub_eq_zero_of_le (le_of_lt hfirst), Nat.sub_eq_zero_of_le (le_of_lt hlast)]
  cases s.target with
  | none => rfl
  | some target => exact d.part_self target _

theorem rect?_of_behind (hfirst : d.start + d.line.instructions.length ≤ s.first)
    (hlast : d.start + d.line.instructions.length ≤ s.last) : d.rect? s = none := by
  unfold rect?
  rw [xAt_end (by omega), xAt_end (k := s.last - d.start) (by omega)]
  cases s.target with
  | none => rfl
  | some target => exact d.part_self target _

end Drawn

/-! ## Rectangles -/

theorem annotations_addLink (c : Canvas Rat) (rect : Rect Rat) (target : String) :
    annotations (c.addLink rect target) = annotations c ++ [⟨rect, target⟩] := by
  simp [annotations, Canvas.pages, Canvas.addLink]

theorem annotations_addContent (c : Canvas Rat) (content : String) :
    annotations (c.addContent content) = annotations c := by
  simp [annotations, Canvas.pages, Canvas.addContent]

namespace Pen

/-- The pen is on a line, in an upright block. -/
structure At (d : Drawn) (p : Pen Rat) : Prop where
  originX : p.originX = d.x
  originY : p.originY = d.y
  rotation : p.rotation = none
  baseline : p.baseline = d.row.y
  padding : p.padding = d.row.padding
  ascent : p.ascent = d.line.ascent
  descent : p.descent = d.line.descent

section

variable {fonts : FontService Rat} {d : Drawn} {p q : Pen Rat} {i : Instruction Rat}

theorem At.same (h : p.At d) (hs : SameBlock p q) : q.At d where
  originX := hs.originX.trans h.originX
  originY := hs.originY.trans h.originY
  rotation := hs.rotation.trans h.rotation
  baseline := hs.baseline.trans h.baseline
  padding := hs.padding.trans h.padding
  ascent := hs.ascent.trans h.ascent
  descent := hs.descent.trans h.descent

theorem corners_across {a b : Rat} (h : a ≤ b) :
    Scalar.least [a, b, a, b] = a ∧ Scalar.greatest [a, b, a, b] = b := by
  simp [Scalar.least, Scalar.greatest, Scalar.isUndefined_rat, Scalar.smaller_eq_min,
    Scalar.larger_eq_max, h]

theorem corners_up (a b : Rat) :
    Scalar.least [a, a, b, b] = min a b ∧ Scalar.greatest [a, a, b, b] = max a b := by
  simp [Scalar.least, Scalar.greatest, Scalar.isUndefined_rat, Scalar.smaller_eq_min,
    Scalar.larger_eq_max]

theorem annotations_annotate (h : p.At d) (link : OpenLink Rat) :
    annotations (p.annotate link).canvas =
      annotations p.canvas ++ (d.part link.target link.start p.x).toList := by
  unfold annotate Drawn.part
  by_cases hnear : p.x - link.start ≤ Scalar.epsilon
  · rw [if_pos hnear, if_neg (not_lt.2 hnear)]
    simp
  · have hfar : Scalar.epsilon < p.x - link.start := not_le.1 hnear
    have hleft : link.start ≤ p.x := by
      have := Scalar.epsilon_pos
      linarith
    have hx := corners_across (add_le_add_right hleft d.x)
    have hy := corners_up (d.y + (d.row.y + d.line.descent)) (d.y + (d.row.y + d.line.ascent))
    rw [if_neg hnear, if_pos hfar]
    dsimp only
    rw [annotations_addLink]
    unfold toPage
    rw [h.rotation, h.originX, h.originY, h.baseline, h.ascent, h.descent]
    simp only [List.map_cons, List.map_nil]
    rw [hx.1, hx.2, hy.1, hy.2, min_add_add_left, min_add_add_left, max_add_add_left,
      max_add_add_left]
    rfl

/-! ## Instructions -/

theorem annotations_flush (fonts : FontService Rat) (p : Pen Rat) :
    annotations (p.flush fonts).canvas = annotations p.canvas := by
  obtain ⟨entered, hcanvas⟩ := (sameLine_flush fonts p).canvas
  rw [hcanvas]
  rfl

theorem Step.beside (h : Step fonts p i (.ok ()) q) (hi : i.isLink = false) :
    q.links = p.links ∧ annotations q.canvas = annotations p.canvas := by
  have hlinks : (p.flush fonts).links = p.links := (sameLine_flush fonts p).links
  have hsent := annotations_flush fonts p
  cases h with
  | text hkind =>
    unfold addText
    dsimp only
    split
    · split
      · exact ⟨rfl, rfl⟩
      · exact ⟨hlinks, hsent⟩
    · exact ⟨hlinks, hsent⟩
  | gap => exact ⟨hlinks, hsent⟩
  | linkStart hkind | linkEnd hkind | noLink hkind => simp [Instruction.isLink, hkind] at hi
  | plain => exact ⟨rfl, rfl⟩

theorem Step.start (h : Step fonts p i (.ok ()) q) {anchor target : Option String}
    (hi : i.kind = .linkStart anchor target) :
    q.links = (target.map fun target => { target, start := p.reach }) :: p.links ∧
      annotations q.canvas = annotations p.canvas := by
  have hsent := annotations_flush fonts p
  cases h with
  | linkStart hkind destinations =>
    rw [hi] at hkind
    cases hkind
    refine ⟨?_, hsent⟩
    show (target.map fun target => OpenLink.mk target (p.flush fonts).x) :: p.links = _
    rw [(sameLine_flush fonts p).x]
  | text hkind | linkEnd hkind | noLink hkind => simp [hi] at hkind
  | gap hgap => simp [Instruction.isGap, hi] at hgap
  | plain hplain => simp [Instruction.isPlain, hi] at hplain

theorem Step.stop (h : Step fonts p i (.ok ()) q) (hi : i.kind = .linkEnd)
    {link : Option (OpenLink Rat)} {links : List (Option (OpenLink Rat))}
    (hopen : p.links = link :: links) (hat : p.At d) :
    q.links = links ∧ annotations q.canvas = annotations p.canvas ++
      (link.bind fun l => d.part l.target l.start p.reach).toList := by
  have hsent := annotations_flush fonts p
  cases h with
  | linkEnd hkind hlinks =>
    rw [hopen] at hlinks
    cases hlinks
    refine ⟨rfl, ?_⟩
    cases link with
    | none => exact hsent.trans (List.append_nil _).symm
    | some link =>
      show annotations ((p.flush fonts).annotate link).canvas = _
      rw [annotations_annotate (hat.same (sameBlock_flush fonts p)), hsent,
        (sameLine_flush fonts p).x]
      rfl
  | noLink _ hnone =>
    rw [hopen] at hnone
    cases hnone
  | text hkind | linkStart hkind => simp [hi] at hkind
  | gap hgap => simp [Instruction.isGap, hi] at hgap
  | plain hplain => simp [Instruction.isPlain, hi] at hplain

end

end Pen

/-! ## Lines -/

/-- A link that is open, as the pen keeps it on the line. -/
def Drawn.entry (d : Drawn) (s : Span) : Option (OpenLink Rat) :=
  s.target.map fun target => { target, start := d.xAt (s.first - d.start) }

theorem Drawn.part_entry (d : Drawn) (s : Span) :
    ((d.entry s).bind fun l => d.part l.target l.start (d.xAt (s.last - d.start))) = d.rect? s := by
  unfold Drawn.entry Drawn.rect?
  cases s.target with
  | none => rfl
  | some target => rfl

namespace Pen

/-- Behind the first `k` instructions of a line the links `stack` are open, the innermost first, and
the rectangles `sent` have come on the canvas. -/
structure OnLine (d : Drawn) (k : Nat) (stack : List Span) (sent : List (Link Rat))
    (p : Pen Rat) : Prop extends At d p where
  reach : p.reach = d.xAt k
  links : p.links = stack.map d.entry
  sent_eq : annotations p.canvas = sent

section

variable {fonts : FontService Rat} {d : Drawn} {p q : Pen Rat} {stack closed left : List Span}
  {sent : List (Link Rat)}

theorem OnLine.drawInstructions {items : List (Instruction Rat)}
    (front : List (Instruction Rat)) (h : p.OnLine d front.length stack sent)
    (hsplit : d.line.instructions = front ++ items)
    (hcloses : Closes (d.start + front.length) stack items closed left)
    (hq : p.drawInstructions fonts items = (.ok (), q)) :
    q.OnLine d d.line.instructions.length left (sent ++ closed.filterMap d.rect?) := by
  -- `front` is behind the pen; what is open on the pen's stack is what `Closes` has open there
  induction items generalizing p front stack sent closed with
  | nil =>
    cases hq
    cases hcloses
    rw [List.append_nil] at hsplit
    rw [hsplit, List.filterMap_nil, List.append_nil]
    exact h
  | cons i items ih =>
    rw [Pen.drawInstructions] at hq
    split at hq
    · cases hq
    · next next hstep =>
      have hstep := step_of_drawInstruction hstep
      obtain ⟨hblock, hreach⟩ := hstep.advances
      have hat : next.At d := h.toAt.same hblock
      have hbehind : next.reach = d.xAt (front ++ [i]).length := by
        rw [hreach, h.reach, h.padding, List.length_append, List.length_singleton,
          Drawn.xAt_succ hsplit]
      have hmore : d.line.instructions = (front ++ [i]) ++ items := by simp [hsplit]
      have hcount : d.start + front.length + 1 = d.start + (front ++ [i]).length := by
        simp [Nat.add_assoc]
      cases hcloses with
      | other hi hrest =>
        obtain ⟨hlinks, hsent⟩ := hstep.beside hi
        rw [hcount] at hrest
        exact ih (front ++ [i]) ⟨hat, hbehind, hlinks.trans h.links, hsent.trans h.sent_eq⟩ hmore
          hrest hq
      | @start _ last _ anchor target _ _ _ _ hi hrest =>
        obtain ⟨hlinks, hsent⟩ := hstep.start hi
        rw [hcount] at hrest
        refine ih (front ++ [i]) ⟨hat, hbehind, ?_, hsent.trans h.sent_eq⟩ hmore hrest hq
        rw [hlinks, h.links, h.reach, List.map_cons]
        unfold Drawn.entry
        rw [Nat.add_sub_cancel_left]
      | @stop _ _ span _ stack _ _ hi hlast hrest =>
        have hopen : p.links = d.entry span :: stack.map d.entry := h.links
        obtain ⟨hlinks, hsent⟩ := hstep.stop hi hopen h.toAt
        have hpart : ((d.entry span).bind fun l => d.part l.target l.start p.reach) =
            d.rect? span := by
          rw [← d.part_entry, h.reach, hlast, Nat.add_sub_cancel_left]
        rw [hpart, h.sent_eq] at hsent
        rw [hcount] at hrest
        have hnext := ih (front ++ [i]) ⟨hat, hbehind, hlinks, hsent⟩ hmore hrest hq
        rw [List.append_assoc] at hnext
        rw [List.filterMap_cons]
        cases hrect : d.rect? span with
        | none =>
          rw [hrect] at hnext
          exact hnext
        | some rect =>
          rw [hrect] at hnext
          exact hnext

/-- The links that are open behind a line have all of its rest. -/
theorem annotations_annotateAll (hat : p.At d) (hx : p.x = d.xAt d.line.instructions.length)
    (hlast : ∀ s ∈ stack, d.start + d.line.instructions.length ≤ s.last) :
    annotations (p.annotateAll (stack.map d.entry)).canvas =
      annotations p.canvas ++ stack.filterMap d.rect? := by
  induction stack generalizing p with
  | nil => simp [annotateAll]
  | cons s stack ih =>
    obtain ⟨hs, hrest⟩ := List.forall_mem_cons.1 hlast
    have hend : d.xAt (s.last - d.start) = p.x := by
      rw [hx]
      exact Drawn.xAt_end (by omega)
    have hpart := d.part_entry s
    rw [hend] at hpart
    rw [List.map_cons, List.filterMap_cons]
    cases hentry : d.entry s with
    | none =>
      rw [hentry] at hpart
      rw [← hpart]
      exact ih hat hx hrest
    | some link =>
      obtain ⟨canvas, hcanvas⟩ := annotate_cases p link
      have hsame : (p.annotate link).At d ∧ (p.annotate link).x = p.x := by
        rw [hcanvas]
        exact ⟨hat.same ((SameBlock.refl p).write _ _ _ _ _ _ _ _ _), rfl⟩
      have hnext := ih hsame.1 (hsame.2.trans hx) hrest
      rw [annotations_annotate hat] at hnext
      rw [hentry] at hpart
      rw [← hpart]
      show annotations ((p.annotate link).annotateAll _).canvas = _
      rw [hnext, List.append_assoc]
      dsimp only [Option.bind_some]
      cases d.part link.target link.start p.x with
      | none => rfl
      | some rect => rfl

/-- Between two lines of a block only the targets of the links that are open matter. -/
structure Between (b : Block) (stack : List Span) (p : Pen Rat) : Prop where
  originX : p.originX = b.x
  originY : p.originY = b.y
  rotation : p.rotation = none
  run : p.run = none
  links : p.links.map (Option.map OpenLink.target) = stack.map Span.target

variable {options : DrawOptions Rat} {b : Block} {start : Nat} {above lines : List (Line Rat)}
  {line : Line Rat} {all : List Span} {later : List (Instruction Rat)}

/-- All links that are open start again where a line does. -/
theorem Between.startLine (h : p.Between b stack) (line : Line Rat) (row : Row)
    (hopened : ∀ s ∈ stack, s.first < start) :
    (p.startLine line row.y row.offset row.padding).OnLine ⟨line, row, b.x, b.y, start⟩ 0 stack
      (annotations p.canvas) where
  originX := h.originX
  originY := h.originY
  rotation := h.rotation
  baseline := rfl
  padding := rfl
  ascent := rfl
  descent := rfl
  reach := by
    have hrun : (p.startLine line row.y row.offset row.padding).run = none := h.run
    rw [reach_of_run hrun, Drawn.xAt_zero]
    rfl
  links := by
    have hentry : ∀ s ∈ stack, Drawn.entry ⟨line, row, b.x, b.y, start⟩ s =
        s.target.map fun target => { target, start := row.offset } := by
      intro s hs
      unfold Drawn.entry
      rw [Nat.sub_eq_zero_of_le (le_of_lt (hopened s hs)), Drawn.xAt_zero]
    have hlinks := congrArg (List.map (Option.map fun target =>
      ({ target, start := row.offset } : OpenLink Rat))) h.links
    rw [List.map_map, List.map_map] at hlinks
    rw [List.map_congr_left hentry]
    refine Eq.trans ?_ hlinks
    show p.links.map _ = _
    refine List.map_congr_left fun link _ => ?_
    cases link with
    | none => rfl
    | some link => rfl
  sent_eq := rfl

/-- A line sends what each link has of it. -/
theorem Between.drawLine (h : p.Between b stack)
    (hreading : Reading all start stack (line.instructions ++ later))
    (hq : p.drawLine fonts options.align b.width line (rowOf options b.width above line).y =
      (.ok (), q)) :
    ∃ left more, q.Between b left ∧
      Reading all (start + line.instructions.length) left later ∧
      annotations q.canvas = annotations p.canvas ++ more ∧
      more.Perm (all.filterMap
        (Drawn.mk line (rowOf options b.width above line) b.x b.y start).rect?) := by
  obtain ⟨closed, left, hcloses, hnext, hlast, hparts⟩ := hreading.line
  have hstart := h.startLine line (rowOf options b.width above line) hreading.opened
  unfold Pen.drawLine at hq
  dsimp only at hq
  split at hq
  · cases hq
  · next drawn hdrawn =>
    have hend : (drawn.flush fonts).annotateAll (drawn.flush fonts).links.reverse = q :=
      (Prod.mk.inj hq).2
    have hbehind := hstart.drawInstructions [] rfl hcloses hdrawn
    have hflush := sameLine_flush fonts drawn
    have hat := hbehind.toAt.same (sameBlock_flush fonts drawn)
    have hlinks : (drawn.flush fonts).links.reverse = left.reverse.map
        (Drawn.mk line (rowOf options b.width above line) b.x b.y start).entry := by
      rw [hflush.links, hbehind.links, List.map_reverse]
    have hsent := annotations_annotateAll hat (hflush.x.trans hbehind.reach)
      (fun s hs => hlast s (List.mem_reverse.1 hs))
    rw [← hlinks, hend, annotations_flush, hbehind.sent_eq, List.append_assoc,
      ← List.filterMap_append] at hsent
    obtain ⟨canvas, hcanvas⟩ := annotateAll_cases (drawn.flush fonts)
      (drawn.flush fonts).links.reverse
    rw [hend] at hcanvas
    refine ⟨left, _, ?_, hnext, hsent, ?_⟩
    · rw [hcanvas]
      refine ⟨hat.originX, hat.originY, hat.rotation, run_flush fonts drawn, ?_⟩
      show (drawn.flush fonts).links.map _ = _
      rw [hflush.links, hbehind.links, List.map_map]
      refine List.map_congr_left fun s _ => ?_
      show (s.target.map _).map OpenLink.target = s.target
      cases s.target with
      | none => rfl
      | some target => rfl
    · -- the links that stay open are sent after those that end here, the outermost first
      refine List.Perm.trans ?_ (hparts _ (fun s hf hl => Drawn.rect?_of_before hf hl)
        (fun s hf hl => Drawn.rect?_of_behind hf hl))
      exact ((List.reverse_perm left).append_left closed).filterMap _

theorem Between.drawLines {used : Rat} (h : p.Between b stack)
    (hreading : Reading all start stack (lines.flatMap Line.instructions ++ later))
    (hq : p.drawLines fonts options b.width (topOf options above) lines = (.ok used, q)) :
    ∃ left more, q.Between b left ∧
      Reading all (start + (lines.flatMap Line.instructions).length) left later ∧
      annotations q.canvas = annotations p.canvas ++ more ∧
      more.Perm ((drawnIn options b start above lines).flatMap fun d =>
        all.filterMap d.rect?) := by
  induction lines generalizing p stack start above with
  | nil =>
    cases hq
    exact ⟨stack, [], h, hreading, (List.append_nil _).symm, .refl []⟩
  | cons line lines ih =>
    rw [List.flatMap_cons, List.append_assoc] at hreading
    rw [Pen.drawLines, ← topOf_concat] at hq
    split at hq
    · cases hq
    · next drawn hdrawn =>
      obtain ⟨middle, sent, hbetween, hnext, hsent, hperm⟩ := h.drawLine hreading hdrawn
      obtain ⟨left, more, hend, hrest, hmore, hperms⟩ := ih hbetween hnext hq
      rw [Nat.add_assoc] at hrest
      rw [List.flatMap_cons, List.length_append]
      refine ⟨left, sent ++ more, hend, hrest, ?_, ?_⟩
      · rw [hmore, hsent, List.append_assoc]
      · exact hperm.append hperms

end

end Pen

/-! ## Blocks -/

namespace DrawContext

variable {fonts : FontService Rat} {c d : DrawContext Rat} {b : Block} {canvas last : Canvas Rat}
  {used : Rat} {stack all : List Span} {start : Nat} {later : List (Instruction Rat)}

theorem draw_parts (hrotation : c.options.rotation = none)
    (hlinks : c.links.map (Option.map OpenLink.target) = stack.map Span.target)
    (hreading : Reading all start stack (b.instructions ++ later))
    (h : c.draw fonts canvas b.lines b.x b.y b.width = (.ok used, d, last)) :
    d.options = c.options ∧
      ∃ left more, d.links.map (Option.map OpenLink.target) = left.map Span.target ∧
        Reading all (start + b.instructions.length) left later ∧
        annotations last = annotations canvas ++ more ∧
        more.Perm ((drawnIn c.options b start [] b.lines).flatMap fun d =>
          all.filterMap d.rect?) := by
  have hstart : (c.start canvas b.x b.y).Between b stack := ⟨rfl, rfl, hrotation, rfl, hlinks⟩
  unfold DrawContext.draw at h
  by_cases hempty : b.lines = []
  · rw [if_pos (by simpa using hempty)] at h
    cases h
    unfold Block.instructions at hreading ⊢
    rw [hempty] at hreading ⊢
    exact ⟨rfl, stack, [], hlinks, hreading, (List.append_nil _).symm, .refl []⟩
  · rw [if_neg (by simpa using hempty)] at h
    split at h
    · cases h
    · next top p hp =>
      have htop : topOf c.options [] = 0 := neg_zero
      rw [← htop] at hp
      obtain ⟨left, more, hbetween, hrest, hmore, hperm⟩ := hstart.drawLines hreading hp
      have hsent : annotations last = annotations p.canvas := by
        cases h
        split
        · exact annotations_addContent _ _
        · rw [annotations_addContent, annotations_addContent]
      cases h
      exact ⟨rfl, left, more, hbetween.links, hrest, hsent.trans hmore, hperm⟩

theorem drawn_parts {e : DrawContext Rat} {blocks : List Block}
    {canvases : List (Canvas Rat × Canvas Rat)} (hrotation : c.options.rotation = none)
    (hlinks : c.links.map (Option.map OpenLink.target) = stack.map Span.target)
    (hreading : Reading all start stack (blocks.flatMap Block.instructions))
    (h : DrawnInTurn fonts c blocks canvases e) :
    e.links = [] ∧ ∃ sent : List (List (Link Rat)),
      List.Forall₂ (fun canvas links => annotations canvas.2 = annotations canvas.1 ++ links)
        canvases sent ∧
      sent.flatten.Perm ((drawnFrom c.options start blocks).flatMap fun d =>
        all.filterMap d.rect?) := by
  induction h generalizing stack start with
  | nil c =>
    obtain rfl : stack = [] := hreading.stack_of_nil
    exact ⟨List.map_eq_nil_iff.1 hlinks, [], .nil, .refl []⟩
  | block hdraw _ ih =>
    rw [List.flatMap_cons] at hreading
    obtain ⟨hoptions, left, more, hopen, hrest, hsent, hperm⟩ :=
      draw_parts hrotation hlinks hreading hdraw
    rw [← hoptions] at hrotation
    obtain ⟨hclosed, sent, hall, hperms⟩ := ih hrotation hopen hrest
    rw [hoptions] at hperms
    refine ⟨hclosed, more :: sent, .cons hsent hall, ?_⟩
    rw [List.flatten_cons, drawnFrom, List.flatMap_append]
    exact hperm.append hperms

end DrawContext

/-- However lines are split into blocks, a link has one rectangle on each line that it is open on,
from where it starts there to where it ends there, unless the two are next to each other; nothing
else is sent, and in the end no link is open. -/
theorem draw_sends_links {fonts : FontService Rat} {c e : DrawContext Rat} {blocks : List Block}
    {canvases : List (Canvas Rat × Canvas Rat)} {spans : List Span}
    (hrotation : c.options.rotation = none) (hlinks : c.links = [])
    (hspans : Spans 0 (blocks.flatMap Block.instructions) spans)
    (hdrawn : DrawnInTurn fonts c blocks canvases e) :
    e.links = [] ∧ ∃ sent : List (List (Link Rat)),
      List.Forall₂ (fun canvas links => annotations canvas.2 = annotations canvas.1 ++ links)
        canvases sent ∧
      sent.flatten.Perm ((drawnFrom c.options 0 blocks).flatMap fun d =>
        spans.filterMap d.rect?) := by
  have hopen : c.links.map (Option.map OpenLink.target) = ([] : List Span).map Span.target := by
    rw [hlinks]
    rfl
  exact DrawContext.drawn_parts hrotation hopen (Reading.of_spans hspans) hdrawn

/-! ## A link that goes on in the next column -/

namespace Sample

open Paragraph.Sample (other)

/-- A link starts behind a word, and an anchor without target in it. -/
def leftColumn : Block :=
  { lines := [.ofInstructions [Sample.run "aa", other (.linkStart none (some "u")),
      other (.linkStart (some "n") none), Sample.run "bb"] false]
    x := 10, y := 90, width := 60 }

def rightColumn : Block :=
  { lines := [.ofInstructions [Sample.run "c", other .linkEnd, other .linkEnd] true]
    x := 80, y := 90, width := 60 }

end Sample

theorem draw_sends_links_columns :
    Spans 0 ([Sample.leftColumn, Sample.rightColumn].flatMap Block.instructions)
        [⟨some "u", 1, 6⟩, ⟨none, 2, 5⟩] ∧
      ∃ canvases e, DrawnInTurn Sample.fonts Sample.context
          [Sample.leftColumn, Sample.rightColumn] canvases e ∧ e.links = [] ∧
        ∃ sent : List (List (Link Rat)),
          List.Forall₂ (fun canvas links => annotations canvas.2 = annotations canvas.1 ++ links)
            canvases sent ∧
          sent.flatten.Perm [⟨⟨22, 1589 / 20, 34, 8731 / 100⟩, "u"⟩,
            ⟨⟨80, 1589 / 20, 86, 8731 / 100⟩, "u"⟩] := by
  have hspans : Spans 0 ([Sample.leftColumn, Sample.rightColumn].flatMap Block.instructions)
      [⟨some "u", 1, 6⟩, ⟨none, 2, 5⟩] :=
    .other rfl (@Spans.link _ 1 _ _ _ _ [_, _, _, _] [] _ _ rfl rfl
      (@Spans.link _ 2 _ _ _ _ [_, _] [] _ _ rfl rfl (.other rfl (.other rfl (.nil _)))
        (.nil _)) (.nil _))
  have hparts : ((drawnFrom Sample.context.options 0
      [Sample.leftColumn, Sample.rightColumn]).flatMap fun d =>
        [(⟨some "u", 1, 6⟩ : Span), ⟨none, 2, 5⟩].filterMap d.rect?) =
        [⟨⟨22, 1589 / 20, 34, 8731 / 100⟩, "u"⟩, ⟨⟨80, 1589 / 20, 86, 8731 / 100⟩, "u"⟩] := by
    decide +kernel
  have hleft : (Sample.context.draw Sample.fonts .standard Sample.leftColumn.lines 10 90
      60).1.toOption.isSome = true := by decide +kernel
  have hright : ((Sample.context.draw Sample.fonts .standard Sample.leftColumn.lines 10 90 60).2.1.draw
      Sample.fonts .standard Sample.rightColumn.lines 80 90 60).1.toOption.isSome = true := by
    decide +kernel
  obtain ⟨used, hused⟩ := Option.isSome_iff_exists.1 hleft
  obtain ⟨more, hmore⟩ := Option.isSome_iff_exists.1 hright
  have hdrawn : DrawnInTurn Sample.fonts Sample.context [Sample.leftColumn, Sample.rightColumn]
      [(_, _), (_, _)] _ :=
    .block (Prod.ext (ok_of_toOption hused) rfl)
      (.block (Prod.ext (ok_of_toOption hmore) rfl) (.nil _))
  obtain ⟨hclosed, sent, hsent, hperm⟩ := draw_sends_links rfl rfl hspans hdrawn
  rw [hparts] at hperm
  exact ⟨hspans, _, _, hdrawn, hclosed, sent, hsent, hperm⟩

end Drawing
end Galley
