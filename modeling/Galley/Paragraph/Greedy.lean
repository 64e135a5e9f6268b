import Galley.Paragraph.Line
import Galley.Paragraph.Source

/-
Greedy line breaking: a line is filled as far as it goes and cut at the last break opportunity.
Only a run without a break opportunity can make a line wider than the column.
-/

namespace Galley
namespace Paragraph

variable {σ α : Type} [Source σ α] [Scalar α]

open Source

/-- Ends a line whose trailing white space did not fit.  The line is soft only if something is
still to be shown before the next forced break; closing markers stay on the line. -/
def closeAfterSpace (line : List (Instruction α)) (s : σ) : Except Error (Line α) × σ :=
  match h : next s with
  | (.error e, t) => (.error e, t)
  | (.ok none, t) => (.ok (.ofInstructions line true), t)
  | (.ok (some i), t) =>
    have : remaining t < remaining s := remaining_lt h
    if i.isForcedBreak then (.ok (.ofInstructions (line ++ [i]) true), t)
    else if i.discardable then closeAfterSpace line t
    else match i.kind with
      | .tagClose _ | .linkEnd => closeAfterSpace (line ++ [i]) t
      | _ => (.ok (.ofInstructions line false), giveBack i t)
termination_by remaining s

/-- Where a line would end that has just taken in `i`, up to `place`. -/
def cutAfter (i : Instruction α) (place : Nat) (cut : Option Nat) : Option Nat :=
  if i.breakOpportunity then some place else cut

/-- Fills a line that holds `line` already, `filled` wide.  `cut` is where the line would end
after its last break opportunity. -/
def fillLine (width : α) (line : List (Instruction α)) (filled : α) (cut : Option Nat) (s : σ) :
    Except Error (Option (Line α)) × σ :=
  match h : next s with
  | (.error e, t) => (.error e, t)
  | (.ok none, t) =>
    (.ok (if line.isEmpty then none else some (.ofInstructions line true)), t)
  | (.ok (some i), t) =>
    have : remaining t < remaining s := remaining_lt h
    if i.isForcedBreak then (.ok (some (.ofInstructions (line ++ [i]) true)), t)
    else
      let overflows := decide (0 < i.solidWidth) &&
        decide (width + Scalar.epsilon < filled + i.solidWidth)
      match overflows, cut with
      | true, some cut =>
        (.ok (some (.ofInstructions (line.take cut) false)),
          giveBackAll (line.drop cut ++ [i]) t)
      | _, _ =>
        if i.discardable && decide (width + Scalar.epsilon < filled + i.width) then
          if filled == 0 then fillLine width line filled cut t
          else
            let (closed, t) := closeAfterSpace line t
            (closed.map some, t)
        else
          fillLine width (line ++ [i]) (filled + i.width)
            (cutAfter i (line.length + 1) cut) t
termination_by remaining s

/-- Takes one line from a stream, or nothing at its end. -/
def greedyLine (width : α) (s : σ) : Except Error (Option (Line α)) × σ :=
  fillLine width [] 0 none s

/-! ## A line uses up instructions -/

theorem remaining_closeAfterSpace_le (line : List (Instruction α)) (s : σ) :
    remaining (closeAfterSpace line s).2 ≤ remaining s := by
  fun_induction closeAfterSpace line s with
  | case1 line s e t h => exact remaining_le h
  | case2 line s t h => exact remaining_le h
  | case3 line s i t h hlt _ => exact Nat.le_of_lt hlt
  | case4 line s i t h hlt _ _ ih => omega
  | case5 line s i t h hlt _ _ _ _ ih => omega
  | case6 line s i t h hlt _ _ _ ih => omega
  | case7 line s i t h hlt =>
    have := remaining_giveBack_le i t
    dsimp only
    omega

theorem remaining_fillLine_le (width : α) (line : List (Instruction α)) (filled : α)
    (cut : Option Nat) (s : σ) (hcut : ∀ c, cut = some c → 0 < c ∧ c ≤ line.length) :
    remaining (fillLine width line filled cut s).2 ≤ remaining s + line.length ∧
      ∀ l, (fillLine width line filled cut s).1 = .ok (some l) →
        remaining (fillLine width line filled cut s).2 < remaining s + line.length := by
  fun_induction fillLine width line filled cut s with
  | case1 line filled cut s e t h =>
    have := remaining_le h
    exact ⟨by dsimp only; omega, by simp⟩
  | case2 line filled cut s t h =>
    have := remaining_le h
    refine ⟨by dsimp only; omega, fun l hl => ?_⟩
    cases line with
    | nil => simp at hl
    | cons => simp only [List.length_cons]; omega
  | case3 line filled cut s i t h hlt _ =>
    exact ⟨by dsimp only; omega, fun _ _ => by dsimp only; omega⟩
  | case4 line filled s i t h hlt _ overflows cut _ =>
    obtain ⟨hpos, hle⟩ := hcut cut rfl
    have hback := remaining_giveBackAll_le (line.drop cut ++ [i]) t
    simp only [List.length_append, List.length_drop, List.length_singleton] at hback
    exact ⟨by dsimp only; omega, fun _ _ => by dsimp only; omega⟩
  | case5 line filled cut s i t h hlt _ _ _ _ _ ih =>
    have ih := ih hcut
    exact ⟨by omega, fun l hl => by have := ih.2 l hl; omega⟩
  | case6 line filled cut s i t h hlt =>
    rename_i closed u hc _
    have := remaining_closeAfterSpace_le line t
    rw [hc] at this
    exact ⟨by dsimp only at *; omega, fun _ _ => by dsimp only at *; omega⟩
  | case7 line filled cut s i t h hlt _ _ _ _ ih =>
    have ih := ih (by
      intro c hc
      simp only [List.length_append, List.length_singleton]
      unfold cutAfter at hc
      split at hc
      · cases hc; omega
      · have := hcut c hc; omega)
    simp only [List.length_append, List.length_singleton] at ih
    exact ⟨by omega, fun l hl => by have := ih.2 l hl; omega⟩

theorem remaining_greedyLine_le (width : α) (s : σ) :
    remaining (greedyLine width s).2 ≤ remaining s :=
  (remaining_fillLine_le width [] 0 none s (by simp)).1

theorem remaining_greedyLine_lt {width : α} {s t : σ} {l : Line α}
    (h : greedyLine width s = (.ok (some l), t)) : remaining t < remaining s := by
  have := (remaining_fillLine_le width [] 0 none s (by simp)).2 l
  rw [show fillLine width [] 0 none s = greedyLine width s from rfl, h] at this
  exact this rfl

theorem fillLine_none {width : α} {line : List (Instruction α)} {filled : α} {cut : Option Nat}
    {s u : σ} (h : fillLine width line filled cut s = (.ok none, u)) :
    line = [] ∧ remaining u ≤ remaining s ∧
      ∀ i t, next s = (.ok (some i), t) → remaining u < remaining s := by
  revert h
  fun_induction fillLine width line filled cut s with
  | case1 => simp
  | case2 line filled cut s t hs =>
    intro h
    cases line with
    | nil =>
      cases h
      exact ⟨rfl, remaining_le hs, by simp [hs]⟩
    | cons => simp at h
  | case3 => simp
  | case4 => simp
  | case5 line filled cut s i t hs hlt _ _ _ _ _ ih =>
    intro h
    have := ih h
    exact ⟨this.1, by omega, fun _ _ _ => by omega⟩
  | case6 line filled cut s i t hs hlt _ _ _ _ closed =>
    intro h
    cases closed <;> simp [Except.map] at h
  | case7 line filled cut s i t hs hlt _ _ _ _ ih =>
    intro h
    exact absurd (ih h).1 (by simp)

/-- Looking for a line uses up something as long as there is something. -/
theorem remaining_greedyLine_of_next {width : α} {s t u : σ} {i : Instruction α}
    {r : Option (Line α)} (hs : next s = (.ok (some i), t))
    (h : greedyLine width s = (.ok r, u)) : remaining u < remaining s := by
  cases r with
  | none => exact (fillLine_none h).2.2 i t hs
  | some l => exact remaining_greedyLine_lt h

/-- All lines of a list of instructions. -/
def greedyLines (width : α) (items : List (Instruction α)) : List (Line α) :=
  match h : greedyLine width items with
  | (.ok (some line), rest) =>
    have : rest.length < items.length := remaining_greedyLine_lt h
    line :: greedyLines width rest
  | _ => []
termination_by items.length

end Paragraph
end Galley
