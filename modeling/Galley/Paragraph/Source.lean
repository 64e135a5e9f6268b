import Galley.Paragraph.Instruction

/-
Streams of instructions that take instructions back.
-/

namespace Galley
namespace Paragraph

/-- A stream that can be read on and given back to.  What is given back comes out again first.
`remaining` bounds what is still to come, so that reading a stream ends. -/
class Source (σ : Type) (α : outParam Type) where
  next : σ → Except Error (Option (Instruction α)) × σ
  giveBack : Instruction α → σ → σ
  remaining : σ → Nat
  remaining_next_le : ∀ s, remaining (next s).2 ≤ remaining s
  remaining_next_lt : ∀ s i, (next s).1 = .ok (some i) → remaining (next s).2 < remaining s
  remaining_giveBack_le : ∀ i s, remaining (giveBack i s) ≤ remaining s + 1

namespace Source

variable {σ α : Type} [Source σ α]

/-- Gives back several instructions, to come out again in their order. -/
def giveBackAll (items : List (Instruction α)) (s : σ) : σ := items.foldr giveBack s

theorem remaining_giveBackAll_le (items : List (Instruction α)) (s : σ) :
    remaining (giveBackAll items s) ≤ remaining s + items.length := by
  induction items with
  | nil => exact Nat.le_refl _
  | cons i rest ih =>
    have h := remaining_giveBack_le i (giveBackAll rest s)
    show remaining (giveBack i (giveBackAll rest s)) ≤ _
    simp only [List.length_cons]
    omega

theorem remaining_lt {s t : σ} {i : Instruction α} (h : next s = (.ok (some i), t)) :
    remaining t < remaining s := by
  have := remaining_next_lt s i (by rw [h])
  rwa [h] at this

theorem remaining_le {s t : σ} {r : Except Error (Option (Instruction α))}
    (h : next s = (r, t)) : remaining t ≤ remaining s := by
  have := remaining_next_le s
  rwa [h] at this

end Source

/-- A list of instructions is a stream that never fails. -/
instance {α : Type} : Source (List (Instruction α)) α where
  next
    | [] => (.ok none, [])
    | i :: rest => (.ok (some i), rest)
  giveBack := List.cons
  remaining := List.length
  remaining_next_le s := by cases s <;> simp
  remaining_next_lt s i h := by
    cases s with
    | nil => simp at h
    | cons => simp
  remaining_giveBack_le i s := by simp

end Paragraph
end Galley
