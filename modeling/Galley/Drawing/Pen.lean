import Galley.Drawing.Options
import Galley.Paragraph.Line
import Galley.Pdf.Canvas

/-
The state of drawing inside one text object.  Positions are relative to the corner of the block.

Neighbouring texts of one style state are collected into a run and shown together.  Font, colour
and rise are written only when they differ from what was last written in the text object.
-/

namespace Galley
namespace Drawing

open Font Paragraph Pdf Style

/-- Face, subset and size that were last written. -/
structure FontCookie (α : Type) where
  font : FontHandle
  subset : Nat
  size : α
  deriving Repr, BEq

/-- Values last written in the text object. -/
structure Cookies (α : Type) where
  font : Option (FontCookie α) := none
  color : Option (Color α) := none
  rise : Option α := none
  deriving Repr

/-- Text waiting to be shown. -/
structure Run (α : Type) where
  state : StyleState α
  /-- Text of each instruction with its spaces counted. -/
  segments : List (String × Nat)
  width : α

/-- A link that has a target and is not closed yet. -/
structure OpenLink (α : Type) where
  target : String
  /-- Where it starts on the current line. -/
  start : α
  deriving Repr

/-- A line drawn under or through a run. -/
structure DecorationLine (α : Type) where
  x1 : α
  x2 : α
  y : α
  thickness : α
  color : Color α
  deriving Repr

structure Pen (α : Type) where
  originX : α
  originY : α
  rotation : Option (Rotation α)
  canvas : Canvas α
  /-- Open links, the innermost first.  An anchor without target is open too. -/
  links : List (Option (OpenLink α))
  /-- Where the line has come to. -/
  x : α
  baseline : α
  /-- Start of the current line of text. -/
  lastX : α
  lastY : α
  /-- Where the next glyph lands if nothing moves it. -/
  penX : α
  /-- Room given to each space of the line. -/
  padding : α
  ascent : α
  descent : α
  cookies : Cookies α := {}
  run : Option (Run α) := none
  decorations : List (DecorationLine α) := []
  /-- Operators written so far. -/
  ops : List (TextOp α) := []

/-! ## Show arrays -/

/-- Adds an item to a show array; neighbouring strings become one. -/
def pushItem {α : Type} (items : List (ShowItem α)) (item : ShowItem α) : List (ShowItem α) :=
  match items.getLast?, item with
  | some (.bytes before), .bytes data => items.dropLast ++ [.bytes (before ++ data)]
  | _, _ => items ++ [item]

/-- Items of one subset, to be shown together. -/
structure Group (α : Type) where
  subset : Nat
  items : List (ShowItem α)
  deriving Repr

/-- Adds a chunk to groups, the latest of which comes first. -/
def addChunk {α : Type} (groups : List (Group α)) (chunk : EncodedChunk α) : List (Group α) :=
  match groups with
  | g :: rest =>
    if g.subset = chunk.subset then
      { g with items := chunk.items.foldl pushItem g.items } :: rest
    else { subset := chunk.subset, items := chunk.items } :: groups
  | [] => [{ subset := chunk.subset, items := chunk.items }]

/-- Adds a displacement to the latest group. -/
def addAdjust {α : Type} (groups : List (Group α)) (amount : α) : List (Group α) :=
  match groups with
  | g :: rest => { g with items := g.items ++ [.adjust amount] } :: rest
  | [] => []

section

variable {α : Type} [Scalar α]

/-- Adds a text to groups, with a displacement for its spaces if there is one. -/
def addSegment (fonts : FontService α) (state : StyleState α) (adjust : α)
    (groups : List (Group α)) (segment : String × Nat) : List (Group α) :=
  let groups := (fonts.encode state.font segment.1 state.kerning).foldl addChunk groups
  if 0 < segment.2 && adjust != 0 then addAdjust groups (adjust * (segment.2 : α)) else groups

/-- Displacement of one space, in thousandths of the font size. -/
def spaceAdjust (padding size : α) : α :=
  if 0 < size then -padding * ((1000 : Nat) : α) / size else 0

/-- Groups of a run in the order in which they are shown.  Each text is encoded by itself, as it
was measured. -/
def groupsOf (fonts : FontService α) (padding : α) (run : Run α) : List (Group α) :=
  (run.segments.foldl (addSegment fonts run.state (spaceAdjust padding run.state.size)) []).reverse

/-! ## Decorations -/

/-- Offset of a decoration from the baseline, as a part of the font size. -/
def decorationOffset : Decoration → Option α
  | .none => none
  | .underline => some (-Scalar.decimal 1 1)
  | .lineThrough => some (Scalar.decimal 3 1)

/-- Thickness of a decoration as a part of the font size. -/
def decorationThickness : α := Scalar.decimal 5 2

namespace DecorationLine

def write (d : DecorationLine α) : String :=
  spacedNumbers 3 [d.color.red, d.color.green, d.color.blue] ++ "RG\n" ++
    spacedNumbers 2 [d.thickness] ++ "w\n" ++
    spacedNumbers 2 [d.x1, d.y] ++ "m " ++ spacedNumbers 2 [d.x2, d.y] ++ "l S\n"

end DecorationLine

namespace Pen

def emit (p : Pen α) (op : TextOp α) : Pen α := { p with ops := p.ops ++ [op] }

/-- A point of the block on the page. -/
def toPage (p : Pen α) (x y : α) : α × α :=
  match p.rotation with
  | some r => (p.originX + x * r.cos - y * r.sin, p.originY + x * r.sin + y * r.cos)
  | none => (p.originX + x, p.originY + y)

/-- Moves to where the line has come, if that is not where the next glyph lands anyway. -/
def catchUp (p : Pen α) : Pen α :=
  if Scalar.epsilon < Scalar.magnitude (p.x - p.penX) then
    { p.emit (.move (p.x - p.lastX) 0) with lastX := p.x, penX := p.x }
  else p

def setColor (p : Pen α) (color : Color α) : Pen α :=
  if p.cookies.color == some color then p
  else { p.emit (.fillColor color) with cookies := { p.cookies with color := some color } }

def setRise (p : Pen α) (rise : α) : Pen α :=
  if p.cookies.rise == some rise then p
  else { p.emit (.rise rise) with cookies := { p.cookies with rise := some rise } }

def setFont (p : Pen α) (resource : String) (cookie : FontCookie α) : Pen α :=
  if p.cookies.font == some cookie then p
  else
    { p.emit (.font resource cookie.size) with
      cookies := { p.cookies with font := some cookie } }

/-- Shows one group of a run under its font. -/
def showGroup (fonts : FontService α) (run : Run α) (p : Pen α) (group : Group α) : Pen α :=
  let embedded := fonts.embedded run.state.font
  let (resource, canvas) :=
    p.canvas.fontResource (fonts.baseName run.state.font) group.subset embedded
  let p := { p with canvas }.setFont resource
    { font := run.state.font, subset := group.subset, size := run.state.size }
  let p := if embedded.isSome then
      { p with canvas := p.canvas.useGlyphs resource (String.join (run.segments.map Prod.fst)) }
    else p
  p.emit (.glyphs group.items)

/-- Room that a run takes on the line, with that of its spaces. -/
def runAdvance (p : Pen α) (run : Run α) : α :=
  run.width + p.padding * ((run.segments.foldl (fun n s => n + s.2) 0 : Nat) : α)

/-- Remembers the line under or through a run, if its style has one. -/
def decorate (p : Pen α) (run : Run α) : Pen α :=
  match decorationOffset run.state.decoration with
  | some factor =>
    { p with
      decorations := p.decorations ++ [{
        x1 := p.x
        x2 := p.x + p.runAdvance run
        y := p.baseline + run.state.rise + factor * run.state.size
        thickness := decorationThickness * run.state.size
        color := run.state.color }] }
  | none => p

/-- Shows the run that waits, if there is one. -/
def flush (fonts : FontService α) (p : Pen α) : Pen α :=
  match p.run with
  | none => p
  | some run =>
    let p := ({ p with run := none }.catchUp.setColor run.state.color).setRise run.state.rise
    let p := (groupsOf fonts p.padding run).foldl (showGroup fonts run) p
    let x := p.x + p.runAdvance run
    { p.decorate run with x, penX := x }

/-- Sends the rectangle of a link's part on the current line to the page. -/
def annotate (p : Pen α) (link : OpenLink α) : Pen α :=
  if p.x - link.start ≤ Scalar.epsilon then p
  else
    let low := p.baseline + p.descent
    let high := p.baseline + p.ascent
    let corners := [p.toPage link.start low, p.toPage p.x low, p.toPage link.start high,
      p.toPage p.x high]
    let xs := corners.map Prod.fst
    let ys := corners.map Prod.snd
    { p with
      canvas := p.canvas.addLink
        { x1 := Scalar.least xs, y1 := Scalar.least ys,
          x2 := Scalar.greatest xs, y2 := Scalar.greatest ys } link.target }

end Pen
end

end Drawing
end Galley
