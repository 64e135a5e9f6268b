import Galley.Drawing.Pen

/-
Draws finished lines.  Links may stay open at the end of a line and of a block: each line that a
link is open on gets a rectangle of its own, and the next block goes on with the links that are
still open.
-/

namespace Galley
namespace Drawing

open Font Paragraph Pdf Style

/-- What drawing one block leaves to the next. -/
structure DrawContext (α : Type) where
  options : DrawOptions α
  /-- Open links, the innermost first. -/
  links : List (Option (OpenLink α)) := []

variable {α : Type} [Scalar α]

namespace Pen

/-- Collects a text into the run that waits if both are under one state, which their serials say,
or starts a new run. -/
def addText (fonts : FontService α) (p : Pen α) (i : Instruction α) (content : String) :
    Pen α :=
  let fresh (p : Pen α) : Pen α :=
    { p.flush fonts with
      run := some { state := i.state, segments := [(content, i.spaces)], width := i.width } }
  match p.run with
  | some run =>
    if run.state.serial = i.state.serial then
      { p with
        run := some { run with
          segments := run.segments ++ [(content, i.spaces)]
          width := run.width + i.width } }
    else fresh p
  | none => fresh p

/-- Sends the place of an anchor to the page. -/
def addAnchor (p : Pen α) (i : Instruction α) : Option String → Except Error (Pen α)
  | none => .ok p
  | some anchor =>
    let (left, top) := p.toPage p.x (p.baseline + i.ascent)
    (View.ofAnchor anchor left top).map fun (label, view) =>
      { p with canvas := p.canvas.addDestination label view }

/-- Draws one instruction. -/
def drawInstruction (fonts : FontService α) (p : Pen α) (i : Instruction α) :
    Except Error Unit × Pen α :=
  match i.kind with
  | .text content => (.ok (), p.addText fonts i content)
  | .strut _ | .paragraphStart _ =>
    let p := p.flush fonts
    (.ok (), { p with x := p.x + i.width })
  | .linkStart anchor target =>
    let p := p.flush fonts
    match p.addAnchor i anchor with
    | .error e => (.error e, p)
    | .ok p =>
      (.ok (), { p with
        links := (target.map fun target => { target, start := p.x }) :: p.links })
  | .linkEnd =>
    let p := p.flush fonts
    match p.links with
    | [] => (.ok (), p)
    | link :: links =>
      let p := match link with
        | some link => p.annotate link
        | none => p
      (.ok (), { p with links })
  | .tagOpen _ | .tagClose _ | .lineBreak | .pageBreak | .paragraphEnd => (.ok (), p)

def drawInstructions (fonts : FontService α) :
    Pen α → List (Instruction α) → Except Error Unit × Pen α
  | p, [] => (.ok (), p)
  | p, i :: rest =>
    match p.drawInstruction fonts i with
    | (.error e, p) => (.error e, p)
    | (.ok (), p) => drawInstructions fonts p rest

/-- Alignment of a line: that of the style of its first instruction, or else a common one. -/
def alignOf (common : TextAlign) (line : Line α) : TextAlign :=
  ((line.instructions.head?).bind fun i => i.state.align).getD common

/-- Where a line starts, and the room given to each of its spaces. -/
def placeLine (align : TextAlign) (width : α) (line : Line α) : α × α :=
  let room := width - line.width
  match align with
  | .left => (0, 0)
  | .center => (Scalar.larger (room / ((2 : Nat) : α)) 0, 0)
  | .right => (Scalar.larger room 0, 0)
  | .justify =>
    if !line.hardBreak && decide (0 < room) then (0, room / (line.spaces : α)) else (0, 0)

/-- Moves to the start of a line, where the links that are open start again. -/
def startLine (p : Pen α) (line : Line α) (baseline offset padding : α) : Pen α :=
  { p.emit (.move (offset - p.lastX) (baseline - p.lastY)) with
    padding
    ascent := line.ascent
    descent := line.descent
    baseline
    x := offset
    lastX := offset
    lastY := baseline
    penX := offset
    links := p.links.map fun link => link.map fun link => { link with start := offset } }

/-- Draws one line on a baseline. -/
def drawLine (fonts : FontService α) (common : TextAlign) (width : α) (p : Pen α)
    (line : Line α) (baseline : α) : Except Error Unit × Pen α :=
  let (offset, padding) := placeLine (alignOf common line) width line
  match (p.startLine line baseline offset padding).drawInstructions fonts line.instructions with
  | (.error e, p) => (.error e, p)
  | (.ok (), p) =>
    let p := p.flush fonts
    (.ok (), p.links.reverse.foldl (fun p link =>
      match link with
      | some link => p.annotate link
      | none => p) p)

/-- Draws lines below each other from `top` on, and returns where they end.  The descent is
negative: the baseline lies that far above the bottom of the line. -/
def drawLines (fonts : FontService α) (options : DrawOptions α) (width : α) :
    Pen α → α → List (Line α) → Except Error α × Pen α
  | p, top, [] => (.ok top, p)
  | p, top, line :: lines =>
    match p.drawLine fonts options.align width line (top - line.height - line.descent) with
    | (.error e, p) => (.error e, p)
    | (.ok (), p) => drawLines fonts options width p (top - (line.height + options.spacing)) lines

/-- All lines under and through runs, as graphics of the page. -/
def writeDecorations (p : Pen α) : String :=
  let (cos, sin) := match p.rotation with
    | some r => (r.cos, r.sin)
    | none => (((1 : Nat) : α), 0)
  "q\n" ++ spacedNumbers 3 [cos, sin, -sin, cos] ++ spacedNumbers 2 [p.originX, p.originY] ++
    "cm\n" ++ String.join (p.decorations.map DecorationLine.write) ++ "Q\n"

end Pen

namespace DrawContext

/-- Links with a target that are not closed yet. -/
def openLinks (c : DrawContext α) : Nat := (c.links.filter Option.isSome).length

/-- The start of a text object: its place on the page and how glyphs are painted. -/
def start (c : DrawContext α) (canvas : Canvas α) (originX originY : α) : Pen α :=
  let place : TextOp α := match c.options.rotation with
    | some r => .matrix r.cos r.sin (-r.sin) r.cos originX originY
    | none => .move originX originY
  let mode : List (TextOp α) := match c.options.renderMode with
    | some mode => [.renderMode mode]
    | none => []
  { originX, originY, canvas
    rotation := c.options.rotation
    links := c.links
    x := 0, baseline := 0, lastX := 0, lastY := 0, penX := 0, padding := 0, ascent := 0
    descent := 0
    ops := place :: mode }

/-- Draws lines with the top left corner of the first at a point of the page, in a column of a
width, and returns the height that they take. -/
def draw (c : DrawContext α) (fonts : FontService α) (canvas : Canvas α) (lines : List (Line α))
    (originX originY width : α) : Except Error α × DrawContext α × Canvas α :=
  if lines.isEmpty then (.ok 0, c, canvas)
  else
    match (c.start canvas originX originY).drawLines fonts c.options width 0 lines with
    | (.error e, p) => (.error e, { c with links := p.links }, p.canvas)
    | (.ok top, p) =>
      let canvas := p.canvas.addContent (writeTextObject p.ops)
      let canvas := if p.decorations.isEmpty then canvas
        else canvas.addContent p.writeDecorations
      (.ok (-top), { c with links := p.links }, canvas)

end DrawContext
end Drawing
end Galley
