import Mathlib
import Galley.Pdf.Document

/-
Objects by their numbers.

Objects are numbered by how many there are before them.  Those of one item, such as a font, stand
together and refer to one another by their places among them, and the last of them stands for the
item (`numbered`).  What a document holds from a number on (`Document.Holds`) is found under its
numbers.
-/

namespace Galley
namespace Pdf

namespace Document

def object? (d : Document) : Nat → Option Object
  | 0 => none
  | i + 1 => d.objects[i]?

theorem mem_of_object? {d : Document} {id : Nat} {o : Object} (h : d.object? id = some o) :
    o ∈ d.objects := by
  cases id with
  | zero => cases h
  | succ i => exact List.mem_of_getElem? h

/-- From the number `first` on, the objects of a document are those of a list. -/
def Holds (d : Document) (first : Nat) (part : List Object) : Prop :=
  ∃ front behind, d.objects = front ++ part ++ behind ∧ front.length + 1 = first

variable {d : Document} {first : Nat} {part more : List Object}

theorem Holds.object (h : d.Holds first part) {i : Nat} {o : Object} (ho : part[i]? = some o) :
    d.object? (first + i) = some o := by
  obtain ⟨front, behind, hobjects, rfl⟩ := h
  obtain ⟨hi, -⟩ := List.getElem?_eq_some_iff.1 ho
  rw [Nat.add_right_comm, object?, hobjects, List.append_assoc,
    List.getElem?_append_right (Nat.le_add_right ..), Nat.add_sub_cancel_left,
    List.getElem?_append_left hi, ho]

theorem Holds.left (h : d.Holds first (part ++ more)) : d.Holds first part := by
  obtain ⟨front, behind, hobjects, hfirst⟩ := h
  exact ⟨front, more ++ behind, by rw [hobjects]; simp only [List.append_assoc], hfirst⟩

theorem Holds.right (h : d.Holds first (part ++ more)) : d.Holds (first + part.length) more := by
  obtain ⟨front, behind, hobjects, rfl⟩ := h
  refine ⟨front ++ part, behind, by rw [hobjects]; simp only [List.append_assoc], ?_⟩
  rw [List.length_append, Nat.add_right_comm]

/-- Objects that are written one for each item have numbers in a row. -/
theorem Holds.each {β : Type} {object : β → Object} {items : List β}
    (h : d.Holds first (items.map object)) :
    List.Forall₂ (fun item id => d.object? id = some (object item)) items
      (List.range' first items.length) := by
  induction items generalizing first with
  | nil => exact .nil
  | cons item items ih =>
    have hitems : d.Holds first ([object item] ++ items.map object) := h
    exact .cons (h.object (i := 0) rfl) (ih hitems.right)

/-- Numbers of objects that a document holds are numbers of the document. -/
theorem Holds.bounds (h : d.Holds first part) :
    1 ≤ first ∧ first + part.length ≤ d.objects.length + 1 := by
  obtain ⟨front, behind, hobjects, rfl⟩ := h
  rw [hobjects, List.length_append, List.length_append]
  omega

theorem Holds.inside (h : d.Holds first part) {id : Nat} (hfirst : first ≤ id)
    (hlast : id < first + part.length) : 1 ≤ id ∧ id ≤ d.objects.length := by
  have := h.bounds
  omega

end Document

/-! ## Groups of objects -/

section

variable {β : Type}

/-- The objects of several items from a number on, and for each item the number of its last
object. -/
def numbered (objectsOf : Nat → β → List Object) : Nat → List β → List Object × List Nat
  | _, [] => ([], [])
  | first, x :: xs =>
    let objects := objectsOf first x
    let (more, ids) := numbered objectsOf (first + objects.length) xs
    (objects ++ more, (first + objects.length - 1) :: ids)

/-- The objects of an item, the last of which has the number `id`. -/
structure Document.Group (d : Document) (objectsOf : Nat → β → List Object) (x : β)
    (first id : Nat) : Prop where
  holds : d.Holds first (objectsOf first x)
  last : id + 1 = first + (objectsOf first x).length

variable {objectsOf : Nat → β → List Object} (hne : ∀ first x, objectsOf first x ≠ [])
  {d : Document} {first : Nat} {xs : List β}

include hne

theorem numbered_groups (h : d.Holds first (numbered objectsOf first xs).1) :
    List.Forall₂ (fun x id => ∃ start, d.Group objectsOf x start id) xs
      (numbered objectsOf first xs).2 := by
  induction xs generalizing first with
  | nil => exact .nil
  | cons x xs ih =>
    have hpos := List.length_pos_of_ne_nil (hne first x)
    exact .cons ⟨first, h.left, by omega⟩ (ih h.right)

theorem numbered_bounds :
    ∀ id ∈ (numbered objectsOf first xs).2,
      first ≤ id ∧ id < first + (numbered objectsOf first xs).1.length := by
  induction xs generalizing first with
  | nil => simp [numbered]
  | cons x xs ih =>
    have hpos := List.length_pos_of_ne_nil (hne first x)
    rw [numbered, List.length_append]
    refine List.forall_mem_cons.2 ⟨by omega, fun id hid => ?_⟩
    have := ih id hid
    omega

theorem numbered_increasing (first : Nat) (xs : List β) :
    (numbered objectsOf first xs).2.Pairwise (· < ·) := by
  induction xs generalizing first with
  | nil => exact .nil
  | cons x xs ih =>
    have hpos := List.length_pos_of_ne_nil (hne first x)
    refine .cons (fun id hid => ?_) (ih _)
    have := numbered_bounds hne id hid
    omega

omit hne in
theorem numbered_mem (h : d.Holds first (numbered objectsOf first xs).1) :
    ∀ o ∈ (numbered objectsOf first xs).1,
      ∃ x ∈ xs, ∃ start, d.Holds start (objectsOf start x) ∧ o ∈ objectsOf start x := by
  induction xs generalizing first with
  | nil => simp [numbered]
  | cons x xs ih =>
    intro o ho
    rcases List.mem_append.1 ho with ho | ho
    · exact ⟨x, List.mem_cons_self .., first, h.left, ho⟩
    · obtain ⟨y, hy, hstart⟩ := ih h.right o ho
      exact ⟨y, List.mem_cons_of_mem _ hy, hstart⟩

end

end Pdf
end Galley
