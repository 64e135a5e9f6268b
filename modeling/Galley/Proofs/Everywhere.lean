import Mathlib

/-
Statements about every place of a list.

`Everywhere P xs` says `P` of each element together with what comes before it and after it.  Such a
statement is proved and used piece by piece: it holds of `xs ++ ys` if it holds of both, each seen
from where it stands.
-/

namespace Galley

variable {β : Type}

/-- `P` holds at each place of the list, of what is before it, there, and after it. -/
def Everywhere (P : List β → β → List β → Prop) (xs : List β) : Prop :=
  ∀ front x back, xs = front ++ x :: back → P front x back

namespace Everywhere

variable {P Q : List β → β → List β → Prop} {xs ys : List β} {x : β}

theorem nil : Everywhere P [] := by
  intro front x back h
  simp at h

theorem mono (h : Everywhere P xs) (hPQ : ∀ front x back, P front x back → Q front x back) :
    Everywhere Q xs :=
  fun front x back hxs => hPQ front x back (h front x back hxs)

theorem congr (hPQ : ∀ front x back, P front x back ↔ Q front x back) :
    Everywhere P xs ↔ Everywhere Q xs :=
  ⟨fun h => h.mono fun front x back => (hPQ front x back).1,
    fun h => h.mono fun front x back => (hPQ front x back).2⟩

theorem and_iff :
    Everywhere (fun front x back => P front x back ∧ Q front x back) xs ↔
      Everywhere P xs ∧ Everywhere Q xs := by
  constructor
  · intro h
    exact ⟨h.mono fun _ _ _ hpq => hpq.1, h.mono fun _ _ _ hpq => hpq.2⟩
  · rintro ⟨hp, hq⟩ front x back hxs
    exact ⟨hp front x back hxs, hq front x back hxs⟩

theorem cons_iff :
    Everywhere P (x :: xs) ↔
      P [] x xs ∧ Everywhere (fun front y back => P (x :: front) y back) xs := by
  constructor
  · intro h
    refine ⟨h [] x xs rfl, fun front y back hxs => h (x :: front) y back ?_⟩
    rw [hxs]
    rfl
  · rintro ⟨hx, hxs⟩ front y back h
    cases front with
    | nil =>
      cases h
      exact hx
    | cons z front =>
      cases h
      exact hxs front y back rfl

theorem append_iff :
    Everywhere P (xs ++ ys) ↔
      Everywhere (fun front y back => P front y (back ++ ys)) xs ∧
        Everywhere (fun front y back => P (xs ++ front) y back) ys := by
  induction xs generalizing P with
  | nil =>
    constructor
    · intro h
      exact ⟨nil, h⟩
    · intro h
      exact h.2
  | cons x xs ih => rw [List.cons_append, cons_iff, ih, cons_iff, and_assoc]; rfl

theorem singleton_iff : Everywhere P [x] ↔ P [] x [] := by
  rw [cons_iff]
  exact and_iff_left nil

theorem concat_iff :
    Everywhere P (xs ++ [x]) ↔
      Everywhere (fun front y back => P front y (back ++ [x])) xs ∧ P xs x [] := by
  rw [append_iff, singleton_iff, List.append_nil]

end Everywhere

end Galley
