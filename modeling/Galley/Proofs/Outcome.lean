import Mathlib.Data.List.Forall2

/-
Steps that can fail.  A sequence of them that goes well is taken apart at its first step.
-/

namespace Galley

variable {ε β γ : Type}

theorem exists_of_bind_ok {x : Except ε β} {f : β → Except ε γ} {c : γ}
    (h : (x >>= f) = .ok c) : ∃ b, x = .ok b ∧ f b = .ok c := by
  cases x with
  | error e => cases h
  | ok b => exact ⟨b, rfl, h⟩

theorem exists_of_map_ok {x : Except ε β} {f : β → γ} {c : γ} (h : x.map f = .ok c) :
    ∃ b, x = .ok b ∧ f b = c := by
  cases x with
  | error e => cases h
  | ok b => exact ⟨b, rfl, Except.ok.inj h⟩

theorem error_of_map {x : Except ε β} {f : β → γ} {e : ε} (h : x.map f = .error e) :
    x = .error e := by
  cases x with
  | error e' => rw [Except.error.inj h]
  | ok b => cases h

/-- A result that was found is not nothing. -/
theorem map_some_ne (x : Except ε β) : x.map some ≠ .ok none := by
  cases x with
  | error e => exact fun h => by cases h
  | ok b => exact fun h => by cases h

theorem ok_of_toOption {x : Except ε β} {b : β} (h : x.toOption = some b) : x = .ok b := by
  cases x with
  | error e => cases h
  | ok a =>
    cases h
    rfl

/-- All elements of a list give their results, in order. -/
theorem mapM_eq_some_iff {f : β → Option γ} {xs : List β} {ys : List γ} :
    xs.mapM f = some ys ↔ List.Forall₂ (fun x y => f x = some y) xs ys := by
  induction xs generalizing ys with
  | nil =>
    rw [List.forall₂_nil_left_iff, List.mapM_nil]
    exact ⟨fun h => (Option.some.inj h).symm, fun h => congrArg some h.symm⟩
  | cons x xs ih =>
    rw [List.mapM_cons, List.forall₂_cons_left_iff]
    constructor
    · intro h
      obtain ⟨y, hy, h⟩ := Option.bind_eq_some_iff.1 h
      obtain ⟨rest, hrest, hboth⟩ := Option.bind_eq_some_iff.1 h
      exact ⟨y, rest, hy, ih.1 hrest, (Option.some.inj hboth).symm⟩
    · rintro ⟨y, rest, hy, hrest, rfl⟩
      rw [hy, ih.2 hrest]
      rfl

/-- A fold that fails goes well up to the element at which it fails. -/
theorem foldlM_error_iff {f : γ → β → Except ε γ} {xs : List β} {c : γ} {e : ε} :
    xs.foldlM f c = .error e ↔
      ∃ front x back d, xs = front ++ x :: back ∧ front.foldlM f c = .ok d ∧ f d x = .error e := by
  constructor
  · intro h
    induction xs generalizing c with
    | nil => cases h
    | cons x xs ih =>
      rw [List.foldlM_cons] at h
      cases hx : f c x with
      | error e' =>
        rw [hx] at h
        exact ⟨[], x, xs, c, rfl, rfl, hx.trans h⟩
      | ok d =>
        rw [hx] at h
        obtain ⟨front, y, back, d', rfl, hfront, hy⟩ := ih h
        refine ⟨x :: front, y, back, d', rfl, ?_, hy⟩
        rw [List.foldlM_cons, hx]
        exact hfront
  · rintro ⟨front, x, back, d, rfl, hfront, hx⟩
    rw [List.foldlM_append, hfront]
    show (x :: back).foldlM f d = _
    rw [List.foldlM_cons, hx]
    rfl

end Galley
