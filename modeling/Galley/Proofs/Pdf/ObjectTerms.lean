import Galley.Proofs.Pdf.Numbering
import Galley.Proofs.Pdf.References
import Galley.Proofs.Pdf.Terms

/-
Objects as they are read.

The text of a value says that value (`Value.reads_write`), so a reader that follows references from
object to object finds the values that were written (`Document.term?_bodies`).
-/

namespace Galley
namespace Pdf

/-! ## The reader -/

namespace Term

/-- The value of a key, the first if there are several. -/
def value? (t : Term) (key : String) : Option Term :=
  match t with
  | dict entries => (entries.find? fun entry => entry.1 = utf8 key).map Prod.snd
  | _ => none

def items? : Term → Option (List Term)
  | array items => some items
  | _ => none

def entries? : Term → Option (List (List UInt8 × Term))
  | dict entries => some entries
  | _ => none

def name? : Term → Option (List UInt8)
  | name data => some data
  | _ => none

end Term

/-- What the object of a number says, from the bodies of the objects from number 1 on. -/
def term? (bodies : List (List UInt8)) : Nat → Option Term
  | 0 => none
  | i + 1 => do
    let body ← bodies[i]?
    let terms ← readTerms? (body.map asciiChar)
    guard (terms.length = 1)
    terms.head?

/-- What a reference leads to.  Any other term stands for itself. -/
def follow? (bodies : List (List UInt8)) : Term → Option Term
  | .ref id 0 => term? bodies id
  | t => some t

/-- The value of a key, behind a reference if there is one. -/
def valueBehind? (bodies : List (List UInt8)) (t : Term) (key : String) : Option Term :=
  (t.value? key).bind (follow? bodies)

/-! ## Values -/

namespace Value

mutual

/-- What the text of a value says. -/
def term : Value → Term
  | null => .word null.write.toList
  | integer n => .word (toString n).toList
  | number text => .word text.toList
  | name s => .name (utf8 s)
  | bytes data => .string data
  | ref id => .ref id 0
  | array items => .array (termsOfItems items)
  | wideArray items => .array (termsOfItems items)
  | dict entries => .dict (termsOfEntries entries)

def termsOfItems : List Value → List Term
  | [] => []
  | item :: items => term item :: termsOfItems items

def termsOfEntries : List (String × Value) → List (List UInt8 × Term)
  | [] => []
  | entry :: entries => termOfEntry entry :: termsOfEntries entries

def termOfEntry : String × Value → List UInt8 × Term
  | (key, value) => (utf8 key, term value)

end

theorem termsOfItems_eq (items : List Value) : termsOfItems items = items.map term := by
  induction items with
  | nil => rfl
  | cons item items ih => rw [termsOfItems, ih, List.map_cons]

theorem termsOfEntries_eq (entries : List (String × Value)) :
    termsOfEntries entries = entries.map fun entry => (utf8 entry.1, entry.2.term) := by
  induction entries with
  | nil => rfl
  | cons entry entries ih => rw [termsOfEntries, ih, List.map_cons, termOfEntry]

theorem term_name (s : String) : (name s).term = .name (utf8 s) := rfl

theorem term_array (items : List Value) : (array items).term = .array (items.map term) := by
  rw [term, termsOfItems_eq]

theorem term_refs (ids : List Nat) :
    (array (ids.map ref)).term = .array (ids.map fun id => .ref id 0) := by
  rw [term_array, List.map_map]
  rfl

theorem term_dict (entries : List (String × Value)) :
    (dict entries).term = .dict (entries.map fun entry => (utf8 entry.1, entry.2.term)) := by
  rw [term, termsOfEntries_eq]

mutual

/-- A reader finds in a text the value that was written. -/
theorem reads_write : (v : Value) → (∀ leaf ∈ v.leaves, leaf.Plain) → Reads v.write.toList v.term
  | null, _ => Reads.word plainWord_null
  | integer n, _ => Reads.word (plainWord_toString n)
  | number text, h => Reads.word (h (number text) (List.mem_singleton_self _))
  | name s, _ => by
    rw [toList_name]
    exact Reads.name s
  | bytes data, _ => by
    rw [toList_bytes]
    exact Reads.string data
  | ref id, _ => by
    rw [toList_ref]
    exact Reads.ref id
  | array items, h => by
    rw [toList_array, term_array]
    exact Reads.array (reads_items items h)
  | wideArray items, h => by
    rw [toList_wideArray, term, termsOfItems_eq]
    exact Reads.wideArray (reads_items items h)
  | dict entries, h => by
    rw [toList_dict, term_dict]
    exact Reads.dict (adds_entries entries h)

theorem reads_items : (items : List Value) → (∀ leaf ∈ leavesOfItems items, leaf.Plain) →
    ∀ item ∈ items, Reads item.write.toList item.term
  | [], _ => by simp
  | item :: items, h => by
    obtain ⟨hitem, hitems⟩ := List.forall_mem_append.1 h
    exact List.forall_mem_cons.2 ⟨reads_write item hitem, reads_items items hitems⟩

theorem adds_entries : (entries : List (String × Value)) →
    (∀ leaf ∈ leavesOfEntries entries, leaf.Plain) →
    ∀ entry ∈ entries, Adds (writeEntry entry).toList [.name (utf8 entry.1), entry.2.term]
  | [], _ => by simp
  | entry :: entries, h => by
    obtain ⟨hentry, hentries⟩ := List.forall_mem_append.1 h
    exact List.forall_mem_cons.2 ⟨adds_entry entry hentry, adds_entries entries hentries⟩

theorem adds_entry : (entry : String × Value) → (∀ leaf ∈ leavesOfEntry entry, leaf.Plain) →
    Adds (writeEntry entry).toList [.name (utf8 entry.1), entry.2.term]
  | (key, value), h => by
    have hkey := (Reads.name key).blank (c := ' ') (by decide)
    have hvalue := (reads_write value h).blank (c := ' ') (by decide)
    rw [toList_writeEntry, ← List.append_assoc]
    exact hkey.append hvalue

end

/-- Keys are told apart by their names. -/
theorem value?_term (entries : List (String × Value)) (key : String) :
    (dict entries).term.value? key =
      ((entries.find? fun entry => entry.1 = key).map Prod.snd).map term := by
  have hkeys : (fun entry : String × Value => decide (utf8 entry.1 = utf8 key)) =
      fun entry => decide (entry.1 = key) := by
    funext entry
    simp only [utf8_injective.eq_iff]
  rw [term_dict, Term.value?, List.find?_map, Option.map_map, Option.map_map]
  unfold Function.comp
  rw [hkeys]

end Value

/-! ## Documents -/

namespace Document

variable [Packer]

/-- The bodies of all objects, as they stand in the file. -/
def bodies (d : Document) : List (List UInt8) := d.objects.map Object.body

/-- An object that was written as a value says that value. -/
theorem term?_bodies {d : Document} {id : Nat} {v : Value} (h : d.object? id = some (.value v))
    (hplain : ∀ leaf ∈ v.leaves, leaf.Plain) : term? d.bodies id = some v.term := by
  cases id with
  | zero => cases h
  | succ i =>
    rw [object?] at h
    rw [term?, bodies, List.getElem?_map, h, Option.map_some, Option.bind_eq_bind, Option.bind_some,
      Object.body, v.map_asciiChar_write hplain, (v.reads_write hplain).readTerms?]
    rfl

end Document
end Pdf
end Galley
