import Galley.Proofs.Drawing.Plotter
import Galley.Proofs.Drawing.RunShift
import Galley.Proofs.Paragraph.Instruction

/-
Where the runs of lines belong.

A run stands behind the widths of all that comes before it on its line, with a share of the room for
each space, and its line below the lines above (`placesFrom`).  The runs are those that the line is
shown in (`run_startsFrom`), and what comes before one is all that is in front of its first text
(`startsIn_startsFrom`).
-/

namespace Galley
namespace Drawing

open Font Paragraph Pdf Style

/-! ## Runs with what stands before them -/

structure Started (α : Type) where
  run : Run α
  /-- What stands before it on its line. -/
  before : List (Instruction α)

section

variable {α : Type} [Scalar α]

/-- What an instruction behind `before` makes of the run that waits: the run that it ends, and what
waits behind it. -/
def joinStarted (before : List (Instruction α)) (waiting : Option (Started α))
    (i : Instruction α) : Option (Started α) × Option (Started α) :=
  match joinRun (waiting.map Started.run) i with
  | (none, joined) =>
    (none, joined.map fun run => { run, before := (waiting.map Started.before).getD before })
  | (some _, joined) => (waiting, joined.map fun run => { run, before })

/-- The runs of instructions behind `before`. -/
def startsFrom :
    List (Instruction α) → Option (Started α) → List (Instruction α) → List (Started α)
  | _, waiting, [] => waiting.toList
  | before, waiting, i :: rest =>
    (joinStarted before waiting i).1.toList ++
      startsFrom (before ++ [i]) (joinStarted before waiting i).2 rest

variable {before : List (Instruction α)} {waiting : Option (Started α)} {i : Instruction α}

theorem joinStarted_extend {w : Started α} {content : String} (hkind : i.kind = .text content)
    (hserial : w.run.state.serial = i.state.serial) :
    joinStarted before (some w) i =
      (none, some { w with
        run := { w.run with
          segments := w.run.segments ++ [(content, i.spaces)]
          width := w.run.width + i.width } }) := by
  unfold joinStarted joinRun
  rw [hkind]
  dsimp only [Option.map_some]
  rw [Option.filter_some_pos (by simpa using hserial)]
  rfl

theorem joinStarted_fresh {content : String} (hkind : i.kind = .text content)
    (hserial : ∀ w ∈ waiting, w.run.state.serial ≠ i.state.serial) :
    joinStarted before waiting i =
      (waiting, some {
        run := { state := i.state, segments := [(content, i.spaces)], width := i.width }
        before }) := by
  unfold joinStarted joinRun
  rw [hkind]
  cases waiting with
  | none => rfl
  | some w =>
    dsimp only [Option.map_some]
    rw [Option.filter_some_neg (by simpa using hserial w rfl)]
    rfl

theorem joinStarted_end (h : (i.isGap || i.isLink) = true) :
    joinStarted before waiting i = (waiting, none) := by
  have hjoin (run : Option (Run α)) : joinRun run i = (run, none) := by
    unfold Instruction.isGap Instruction.isLink at h
    unfold joinRun
    cases hkind : i.kind <;> simp_all
  unfold joinStarted
  rw [hjoin]
  cases waiting with
  | none => rfl
  | some w => rfl

theorem joinStarted_plain (h : i.isPlain = true) :
    joinStarted before waiting i = (none, waiting) := by
  have hjoin (run : Option (Run α)) : joinRun run i = (none, run) := by
    unfold Instruction.isPlain at h
    unfold joinRun
    cases hkind : i.kind <;> simp_all
  unfold joinStarted
  rw [hjoin]
  cases waiting with
  | none => rfl
  | some w => rfl

theorem run_joinStarted (before : List (Instruction α)) (waiting : Option (Started α))
    (i : Instruction α) :
    (joinStarted before waiting i).1.map Started.run = (joinRun (waiting.map Started.run) i).1 ∧
      (joinStarted before waiting i).2.map Started.run =
        (joinRun (waiting.map Started.run) i).2 := by
  have hended : (joinRun (waiting.map Started.run) i).1 = none ∨
      (joinRun (waiting.map Started.run) i).1 = waiting.map Started.run := by
    unfold joinRun
    cases i.kind with
    | text content =>
      dsimp only
      split
      · exact Or.inl rfl
      · exact Or.inr rfl
    | _ => simp
  unfold joinStarted
  split
  · next joined hjoin =>
    rw [hjoin]
    exact ⟨rfl, by simp [Function.comp_def]⟩
  · next ended joined hjoin =>
    rw [hjoin] at hended ⊢
    refine ⟨?_, by simp [Function.comp_def]⟩
    rcases hended with hended | hended
    · cases hended
    · exact hended.symm

/-- These are the runs that the instructions are shown in. -/
theorem run_startsFrom (before : List (Instruction α)) (waiting : Option (Started α))
    (items : List (Instruction α)) :
    (startsFrom before waiting items).map Started.run =
      runsFrom (waiting.map Started.run) items := by
  induction items generalizing before waiting with
  | nil => cases waiting <;> rfl
  | cons i items ih =>
    obtain ⟨hended, hwaits⟩ := run_joinStarted before waiting i
    rw [startsFrom, runsFrom, List.map_append, ih, hwaits, ← hended]
    cases (joinStarted before waiting i).1 <;> rfl

/-- A run starts with a text that has its style, right behind what stands before the run. -/
def Started.StartsIn (s : Started α) (items : List (Instruction α)) : Prop :=
  ∃ i content behind, items = s.before ++ i :: behind ∧ i.kind = .text content ∧
    s.run.state = i.state ∧ s.run.segments.head? = some (content, i.spaces)

omit [Scalar α] in
theorem Started.StartsIn.append {s : Started α} {items : List (Instruction α)}
    (h : s.StartsIn items) (more : List (Instruction α)) : s.StartsIn (items ++ more) := by
  obtain ⟨i, content, behind, hitems, hkind, hstate, hfirst⟩ := h
  exact ⟨i, content, behind ++ more, by simp [hitems], hkind, hstate, hfirst⟩

theorem startsIn_joinStarted (hw : ∀ w ∈ waiting, w.StartsIn before) :
    ∀ s ∈ (joinStarted before waiting i).2, s.StartsIn (before ++ [i]) := by
  intro s hs
  cases hkind : i.kind with
  | text content =>
    by_cases hjoins : ∃ w ∈ waiting, w.run.state.serial = i.state.serial
    · obtain ⟨w, hwaits, hserial⟩ := hjoins
      obtain ⟨j, first, behind, hbefore, hj, hstate, hhead⟩ := (hw w hwaits).append [i]
      rw [Option.mem_def.1 hwaits, joinStarted_extend hkind hserial] at hs
      cases hs
      refine ⟨j, first, behind, hbefore, hj, hstate, ?_⟩
      show (w.run.segments ++ _).head? = _
      rw [List.head?_append, hhead]
      rfl
    · have hfresh : ∀ w ∈ waiting, w.run.state.serial ≠ i.state.serial := by
        intro w hwaits heq
        exact hjoins ⟨w, hwaits, heq⟩
      rw [joinStarted_fresh hkind hfresh] at hs
      cases hs
      exact ⟨i, content, [], rfl, hkind, rfl, rfl⟩
  | strut _ | paragraphStart _ | linkStart _ _ | linkEnd =>
    rw [joinStarted_end (by simp [Instruction.isGap, Instruction.isLink, hkind])] at hs
    cases hs
  | tagOpen _ | tagClose _ | lineBreak | pageBreak | paragraphEnd =>
    rw [joinStarted_plain (by simp [Instruction.isPlain, hkind])] at hs
    exact (hw s hs).append [i]

/-- What stands before a run is all that stands before its first text. -/
theorem startsIn_startsFrom {items : List (Instruction α)}
    (hw : ∀ w ∈ waiting, w.StartsIn before) :
    ∀ s ∈ startsFrom before waiting items, s.StartsIn (before ++ items) := by
  induction items generalizing before waiting with
  | nil =>
    intro s hs
    rw [List.append_nil]
    exact hw s (Option.mem_toList.1 hs)
  | cons i items ih =>
    intro s hs
    have hrest := ih (startsIn_joinStarted (i := i) hw)
    rw [List.append_assoc] at hrest
    rcases List.mem_append.1 hs with hs | hs
    · have hended : s ∈ waiting := by
        unfold joinStarted at hs
        split at hs
        · simp at hs
        · simpa using hs
      exact (hw s hended).append (i :: items)
    · exact hrest s hs

end

/-! ## Places -/

/-- A line in its block: where its text starts, the room of each of its spaces, and its
baseline. -/
structure Row where
  offset : Rat
  padding : Rat
  y : Rat

/-- A run and where it belongs. -/
structure Place where
  run : Run Rat
  padding : Rat
  x : Rat
  y : Rat
  /-- Struts and indents before it on its line. -/
  struts : Nat

/-- The widths of instructions, with the room of their spaces. -/
def along (padding : Rat) (items : List (Instruction Rat)) : Rat :=
  (items.map fun i => i.width + padding * (i.spaces : Rat)).sum

def Row.place (row : Row) (s : Started Rat) : Place :=
  { run := s.run
    padding := row.padding
    x := row.offset + along row.padding s.before
    y := row.y
    struts := s.before.countP Instruction.isGap }

/-- Where the line below the lines `above` begins. -/
def topOf (options : DrawOptions Rat) (above : List (Line Rat)) : Rat :=
  -(above.map fun line => line.height + options.spacing).sum

/-- A line below the lines `above`. -/
def rowOf (options : DrawOptions Rat) (width : Rat) (above : List (Line Rat)) (line : Line Rat) :
    Row :=
  { offset := (Pen.placeLine (Pen.alignOf options.align line) width line).1
    padding := (Pen.placeLine (Pen.alignOf options.align line) width line).2
    y := topOf options above - line.height - line.descent }

theorem topOf_concat (options : DrawOptions Rat) (above : List (Line Rat)) (line : Line Rat) :
    topOf options (above ++ [line]) = topOf options above - (line.height + options.spacing) := by
  unfold topOf
  rw [List.map_append, List.sum_append, List.map_singleton, List.sum_singleton]
  ring

/-- The places of all runs of lines that are below the lines `above`. -/
def placesFrom (options : DrawOptions Rat) (width : Rat) :
    List (Line Rat) → List (Line Rat) → List Place
  | _, [] => []
  | above, line :: lines =>
    (startsFrom [] none line.instructions).map (rowOf options width above line).place ++
      placesFrom options width (above ++ [line]) lines

/-- How far each show operator of a run displaces the next glyph: together as far as the run
does. -/
structure Together (fonts : FontService Rat) (place : Place) (shifts : List Rat) : Prop where
  length : shifts.length = (groupsOf fonts place.padding place.run).length
  sum : shifts.sum = shiftOf fonts place.padding place.run

/-- The show operators of a run are met one after the other, the first in the place of the run. -/
structure Lands (fonts : FontService Rat) (block : TextMatrix) (place : Place)
    (marks : List Mark) : Prop where
  items : marks.map Prod.snd = (groupsOf fonts place.padding place.run).map Group.items
  first : ∃ x later, marks.map Prod.fst = block.translate x place.y :: later ∧
    |x - place.x| ≤ Scalar.epsilon * (place.struts : Rat)

end Drawing
end Galley
