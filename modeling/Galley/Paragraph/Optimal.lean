import Galley.Paragraph.Greedy

/-
Line breaking with the least raggedness over a whole paragraph.  The badness of a line is the
square of the room left at its end; the sequence of lines with the least total badness wins.

The search goes forward over the places where a line may start and keeps the best way to each.
Lines worse than a tolerance are not considered.  When no sequence is left the tolerance grows,
and after a bounded number of attempts the paragraph is broken greedily.
-/

namespace Galley
namespace Paragraph

open Font

structure OptimalConfig (α : Type) where
  /-- First tolerance as a part of the width; its square bounds the badness of a line. -/
  initialToleranceRatio : α
  /-- Factor of the tolerance on each retry. -/
  growth : α
  maxRetries : Nat
  /-- Badness of a line that holds a run wider than the column. -/
  overflowPenalty : α
  deriving Repr

namespace OptimalConfig

variable {α : Type} [Scalar α]

def standard : OptimalConfig α :=
  { initialToleranceRatio := Scalar.decimal 2 1
    growth := ((2 : Nat) : α)
    maxRetries := 12
    overflowPenalty := ((10000 : Nat) : α) }

def tolerance (c : OptimalConfig α) (width : α) (attempt : Nat) : α :=
  Scalar.power (c.initialToleranceRatio * width) 2 * Scalar.power c.growth attempt

end OptimalConfig

/-! ## Lines from one start -/

/-- A place where the next line may start, with the line that ends before it. -/
structure Break (α : Type) where
  /-- Index of the first instruction of the next line. -/
  next : Nat
  badness : α
  /-- Width of the line, without the white space that it ends with. -/
  width : α
  deriving Repr

/-- Where a line stands while it grows. -/
structure Growth (α : Type) where
  running : α
  seenBreak : Bool
  /-- Penalty of the line, zero while nothing overflows. -/
  penalty : α
  /-- The instruction before this one is white space on the same line. -/
  afterSpace : Bool

namespace Growth

variable {α : Type} [Scalar α]

def start : Growth α := { running := 0, seenBreak := false, penalty := 0, afterSpace := false }

end Growth

/-- What can be done with a line: the breaks it may end with, and the penalty of going on to the
end of the paragraph, if that is possible. -/
structure Reach (α : Type) where
  breaks : List (Break α)
  toEnd : Option α

/-- What a paragraph is broken against. -/
structure Limits (α : Type) where
  width : α
  tolerance : α
  penalty : α

section

variable {α : Type} [Scalar α]

/-- Something visible is left. -/
def showsMore (items : List (Instruction α)) : Bool := items.any Instruction.isVisible

/-- Leading white space of a list, counted. -/
def leadingSpaces (items : List (Instruction α)) : Nat :=
  (items.takeWhile Instruction.discardable).length

/-- Grows a line over `items`, the first of which has the index `place`.  A line never starts
with white space, so a break leads to the end of the white space after it; a break inside a run
of white space would lead to the same place and is passed over. -/
def grow (limits : Limits α) : Nat → Growth α → List (Instruction α) → Reach α
  | _, g, [] => { breaks := [], toEnd := some g.penalty }
  | place, g, item :: rest =>
    let overflows := decide (0 < item.solidWidth) &&
      decide (limits.width + Scalar.epsilon < g.running + item.solidWidth)
    if overflows && g.seenBreak then { breaks := [], toEnd := none }
    else
      let penalty := if overflows then limits.penalty else g.penalty
      let running := g.running + item.solidWidth
      if !item.breakOpportunity then
        grow limits (place + 1)
          { g with running := running + item.looseWidth, penalty, afterSpace := item.discardable }
          rest
      else if !showsMore rest then { breaks := [], toEnd := some penalty }
      else
        let penalized := decide (0 < penalty)
        let badness := if penalized then penalty else Scalar.power (limits.width - running) 2
        let allowed := (penalized || decide (badness ≤ limits.tolerance)) &&
          !(g.afterSpace && item.discardable)
        let here := if allowed then
            [{ next := place + 1 + leadingSpaces rest, badness, width := running }]
          else []
        if penalized ||
            decide (limits.width + Scalar.epsilon < running + item.looseWidth) then
          { breaks := here, toEnd := none }
        else
          let further := grow limits (place + 1)
            { running := running + item.looseWidth, seenBreak := true, penalty,
              afterSpace := item.discardable } rest
          { further with breaks := here ++ further.breaks }

/-! ## The search -/

/-- A way to a place: the starts of its lines, latest first. -/
structure Path (α : Type) where
  badness : α
  starts : List Nat
  /-- Width of the latest line that has ended. -/
  width : α
  deriving Repr

/-- The better of two ways; of two equally bad ones the earlier found. -/
def betterPath (old : Option (Path α)) (new : Path α) : Path α :=
  match old with
  | none => new
  | some old => if new.badness < old.badness then new else old

/-- Goes on from a path over one break. -/
def Path.extend (path : Path α) (b : Break α) : Path α :=
  { badness := path.badness + b.badness, starts := b.next :: path.starts, width := b.width }

/-- Enters the ways over the breaks of one line. -/
def enterBreaks (path : Path α) (best : Array (Option (Path α))) (breaks : List (Break α)) :
    Array (Option (Path α)) :=
  breaks.foldl (fun best b => best.modify b.next fun old => some (betterPath old (path.extend b)))
    best

/-- Goes over the places in order.  When a place is reached, all ways to it are known. -/
def searchFrom (limits : Limits α) : Nat → List (Instruction α) → Array (Option (Path α)) →
    Option (Path α) → Option (Path α)
  | _, [], _, final => final
  | place, item :: rest, best, final =>
    match best[place]? with
    | some (some path) =>
      let reach := grow limits place .start (item :: rest)
      let final := match reach.toEnd with
        | some penalty =>
          some (betterPath final { path with badness := path.badness + penalty })
        | none => final
      searchFrom limits (place + 1) rest (enterBreaks path best reach.breaks) final
    | _ => searchFrom limits (place + 1) rest best final

/-- Indices at which the lines of the best sequence start, or nothing when every sequence has a
line beyond the tolerance. -/
def findBreaks (limits : Limits α) (items : List (Instruction α)) : Option (List Nat) :=
  let best := (Array.replicate items.length none).modify 0
    fun _ => some { badness := 0, starts := [0], width := 0 }
  (searchFrom limits 0 items best none).map fun path => path.starts.reverse

/-! ## Lines of a paragraph -/

/-- Cuts a list before the given indices; `place` is the index of its first item. -/
def cutAt (place : Nat) (items : List (Instruction α)) : List Nat → List (List (Instruction α))
  | [] => [items]
  | start :: starts =>
    items.take (start - place) :: cutAt start (items.drop (start - place)) starts

/-- Lines of pieces.  Only the last ends hard. -/
def linesOfPieces : List (List (Instruction α)) → List (Line α)
  | [] => []
  | [last] => [.ofInstructions last true]
  | piece :: pieces => .ofInstructions piece false :: linesOfPieces pieces

/-- Fills the last line with a strut under the state of its last instruction. -/
def padLast (width : α) (fonts : FontService α) : List (Line α) → List (Line α)
  | [] => []
  | [last] =>
    match last.instructions.getLast? with
    | some i => [last.padTo width fun room => .strut room i.state fonts]
    | none => [last]
  | line :: lines => line :: padLast width fonts lines

/-- The first attempt that finds breaks, of those that are left. -/
def attemptBreaks (width : α) (config : OptimalConfig α) (items : List (Instruction α)) :
    Nat → Nat → Option (List Nat)
  | 0, _ => none
  | left + 1, attempt =>
    let limits :=
      { width, tolerance := config.tolerance width attempt, penalty := config.overflowPenalty }
    match findBreaks limits items with
    | some starts => some starts
    | none => attemptBreaks width config items left (attempt + 1)

/-- Breaks a paragraph.  With `justify` its last line is filled up to the width, unless the
paragraph had to be broken greedily. -/
def breakLines (width : α) (config : OptimalConfig α) (justify : Bool) (fonts : FontService α)
    (items : List (Instruction α)) : List (Line α) :=
  if items.isEmpty then []
  else match attemptBreaks width config items (config.maxRetries + 1) 0 with
    | none => greedyLines width items
    | some starts =>
      let lines := linesOfPieces (cutAt 0 items (starts.drop 1))
      if justify then padLast width fonts lines else lines

end

end Paragraph
end Galley
