import Galley.Drawing.Draw
import Galley.Options

/-
Lays out one text and draws it: batch by batch, through the columns of as many pages as it
needs, or as one block at a fixed place.
-/

namespace Galley

open Drawing Font Paragraph Pdf Style

/-- A text on its way to the page. -/
structure Formatter (α : Type) where
  fonts : FontService α
  options : Options α
  /-- What is still to be handed out. -/
  typesetter : Typesetter α
  /-- Links stay open from one block to the next. -/
  context : DrawContext α

namespace Formatter

variable {α : Type} [Scalar α]

/-- Options that make no sense are refused here, before the text is looked at. -/
def ofText (text : String) (options : Options α) (fonts : FontService α)
    (registry : Registry α) : Except Error (Formatter α) := do
  options.validate
  let style ← options.rootStyle
  let drawing ← options.drawOptions
  let parser := Parser.ofText text (.root fonts style) { fonts, registry, mode := options.mode }
  return {
    fonts
    options
    typesetter := {
      parser
      algorithm := options.algorithm
      optimal := options.optimal
      justify := options.align = .justify }
    context := { options := drawing } }

/-- Every line has been handed out. -/
def done (f : Formatter α) : Except Error Bool × Formatter α :=
  let (r, typesetter) := f.typesetter.done
  (r, { f with typesetter })

/-- The next lines, as many as fit into a box. -/
def fill (f : Formatter α) (width height : α) :
    Except Error (List (Line α)) × Formatter α :=
  let (r, typesetter) := f.typesetter.fill width height f.options.spacing
  (r, { f with typesetter })

/-- All lines that are left. -/
def lines (f : Formatter α) (width : α) : Except Error (List (Line α)) × Formatter α :=
  let (r, typesetter) := f.typesetter.lines width
  (r, { f with typesetter })

/-- Draws lines with their top left corner at a point, and returns the height that they take. -/
def draw (f : Formatter α) (lines : List (Line α)) (x y width : α) (canvas : Canvas α) :
    Except Error α × Formatter α × Canvas α :=
  let (r, context, canvas) := f.context.draw f.fonts canvas lines x y width
  (r, { f with context }, canvas)

/-- Draws all that is left as one block at the fixed corner.  Page breaks end lines there, but
do not turn pages. -/
def drawAt (f : Formatter α) (width : α) (canvas : Canvas α) :
    Except Error α × Formatter α × Canvas α :=
  match f.options.corner with
  | none => (.error (.usage .missingPosition), f, canvas)
  | some (x, y) =>
    match f.lines width with
    | (.error e, f) => (.error e, f, canvas)
    | (.ok lines, f) => f.draw lines x y width canvas

/-! ## Flowing through columns -/

/-- Where the flow stands on the current page. -/
structure Flow (α : Type) where
  /-- Columns of the page that are drawn. -/
  drawn : Nat
  /-- Where its columns start. -/
  top : α
  /-- Where the tallest of the drawn columns ends. -/
  lowest : α

/-- The flow starts at the cursor of the page. -/
def Flow.start (canvas : Canvas α) : Flow α := { drawn := 0, top := canvas.y, lowest := canvas.y }

def columns (f : Formatter α) : Nat := max 1 f.options.columns

def columnWidth (f : Formatter α) (bounds : Bounds α) : α :=
  (bounds.width - f.options.gap * ((f.columns - 1 : Nat) : α)) / (f.columns : α)

/-- Left edge of a column, the first being number zero. -/
def columnLeft (f : Formatter α) (bounds : Bounds α) (column : Nat) : α :=
  bounds.left + (column : α) * (f.columnWidth bounds + f.options.gap)

/-- Fills and draws the next column of the page. -/
def drawColumn (f : Formatter α) (canvas : Canvas α) (flow : Flow α) :
    Except Error (Flow α) × Formatter α × Canvas α :=
  let bounds := canvas.bounds
  let width := f.columnWidth bounds
  match f.fill width (flow.top - bounds.bottom) with
  | (.error e, f) => (.error e, f, canvas)
  | (.ok lines, f) =>
    match f.draw lines (f.columnLeft bounds flow.drawn) flow.top width canvas with
    | (.error e, f, canvas) => (.error e, f, canvas)
    | (.ok used, f, canvas) =>
      (.ok { flow with
        drawn := flow.drawn + 1
        lowest := Scalar.smaller flow.lowest (flow.top - used) }, f, canvas)

theorem less_fill {f g : Formatter α} {width height : α} {lines : List (Line α)}
    (hf : f.typesetter.Pending) (h : f.fill width height = (.ok lines, g)) :
    Typesetter.Less g.typesetter f.typesetter := by
  unfold fill at h
  cases hb : f.typesetter.fill width height f.options.spacing with
  | mk r typesetter =>
    rw [hb] at h
    cases h
    exact Typesetter.less_fill_of_pending hf hb

theorem typesetter_draw {f g : Formatter α} {lines : List (Line α)} {x y width : α}
    {canvas canvas' : Canvas α} {r : Except Error α}
    (h : f.draw lines x y width canvas = (r, g, canvas')) : g.typesetter = f.typesetter := by
  unfold draw at h
  cases h
  rfl

/-- A column uses up lines as long as there are any. -/
theorem less_drawColumn {f g : Formatter α} {canvas canvas' : Canvas α} {flow flow' : Flow α}
    (hf : f.typesetter.Pending) (h : f.drawColumn canvas flow = (.ok flow', g, canvas')) :
    Typesetter.Less g.typesetter f.typesetter := by
  unfold drawColumn at h
  dsimp only at h
  split at h
  · cases h
  · next hfill =>
    split at h
    · cases h
    · next hdraw =>
      cases h
      rw [typesetter_draw hdraw]
      exact less_fill hf hfill

theorem pending_of_done {f g : Formatter α} (h : f.done = (.ok false, g)) :
    g.typesetter.Pending ∧ Typesetter.NotMore g.typesetter f.typesetter := by
  unfold done at h
  cases hb : f.typesetter.done with
  | mk r typesetter =>
    rw [hb] at h
    cases h
    have := Typesetter.notMore_done f.typesetter
    rw [hb] at this
    exact ⟨Typesetter.pending_of_done hb, this⟩

/-- Starts a page when all columns of the current one are drawn. -/
def turnPage (f : Formatter α) (canvas : Canvas α) (flow : Flow α) : Canvas α × Flow α :=
  if flow.drawn < f.columns then (canvas, flow)
  else (canvas.startPage, .start canvas.startPage)

/-- Draws column after column until nothing is left.  The cursor of a page is set when its last
column is drawn. -/
def flowOn (f : Formatter α) (canvas : Canvas α) (flow : Flow α) :
    Except Error Unit × Formatter α × Canvas α :=
  match hd : f.done with
  | (.error e, f) => (.error e, f, canvas)
  | (.ok true, f) => (.ok (), f, canvas.setY flow.lowest)
  | (.ok false, g) =>
    match hc : g.drawColumn (g.turnPage canvas flow).1 (g.turnPage canvas flow).2 with
    | (.error e, f, canvas) => (.error e, f, canvas)
    | (.ok flow, k, canvas) =>
      have := Typesetter.lex_of_less
        ((less_drawColumn (pending_of_done hd).1 hc).trans_notMore (pending_of_done hd).2)
      flowOn k (if flow.drawn < k.columns then canvas else canvas.setY flow.lowest) flow
termination_by f.typesetter.size
decreasing_by assumption

/-- Lets the text flow through the columns of the canvas, on as many pages as it takes.  The
cursor ends up below the tallest column of the last page. -/
def paginate (f : Formatter α) (canvas : Canvas α) :
    Except Error Unit × Formatter α × Canvas α :=
  if f.options.corner.isSome then (.error (.usage .flowAtFixedPosition), f, canvas)
  else f.flowOn canvas (.start canvas)

end Formatter

/-! ## In one go -/

section

variable {α : Type} [Scalar α]

/-- The lines of a text in a column. -/
def layout (text : String) (width : α) (options : Options α) (fonts : FontService α)
    (registry : Registry α) : Except Error (List (Line α)) := do
  let f ← Formatter.ofText text options fonts registry
  (f.lines width).1

/-- Draws finished lines on their own, and returns the height that they take. -/
def drawLines (lines : List (Line α)) (x y width : α) (options : Options α)
    (fonts : FontService α) (canvas : Canvas α) : Except Error α × Canvas α :=
  match (do options.validate; options.drawOptions) with
  | .error e => (.error e, canvas)
  | .ok drawing =>
    let context : DrawContext α := { options := drawing }
    let (r, _, canvas) := context.draw fonts canvas lines x y width
    (r, canvas)

end

end Galley
