import Galley.Pdf.Document
import Galley.Scalar
import Galley.Proofs.Pdf.Words

/-
The references of values and objects.

Whatever the names and strings of a value hold, a reader finds in its text the references of the
value and no others (`Object.references_body`).
-/

namespace Galley
namespace Pdf

/-! ## Values -/

namespace Value

mutual

/-- The parts of a value that have no parts. -/
def leaves : Value → List Value
  | null => [null]
  | integer n => [integer n]
  | number text => [number text]
  | name s => [name s]
  | bytes data => [bytes data]
  | ref id => [ref id]
  | array items => leavesOfItems items
  | wideArray items => leavesOfItems items
  | dict entries => leavesOfEntries entries

def leavesOfItems : List Value → List Value
  | [] => []
  | item :: items => leaves item ++ leavesOfItems items

def leavesOfEntries : List (String × Value) → List Value
  | [] => []
  | entry :: entries => leavesOfEntry entry ++ leavesOfEntries entries

def leavesOfEntry : String × Value → List Value
  | (_, value) => leaves value

end

theorem leavesOfItems_eq (items : List Value) : leavesOfItems items = items.flatMap leaves := by
  induction items with
  | nil => rfl
  | cons item items ih => rw [leavesOfItems, ih, List.flatMap_cons]

theorem leavesOfEntries_eq (entries : List (String × Value)) :
    leavesOfEntries entries = entries.flatMap fun entry => entry.2.leaves := by
  induction entries with
  | nil => rfl
  | cons entry entries ih => rw [leavesOfEntries, ih, List.flatMap_cons, leavesOfEntry]

theorem writeItems_eq (items : List Value) : writeItems items = items.map write := by
  induction items with
  | nil => rfl
  | cons item items ih => rw [writeItems, ih, List.map_cons]

theorem writeEntries_eq (entries : List (String × Value)) :
    writeEntries entries = entries.map writeEntry := by
  induction entries with
  | nil => rfl
  | cons entry entries ih => rw [writeEntries, ih, List.map_cons]

/-- The number that a leaf refers to. -/
def ref? : Value → Option Nat
  | ref id => some id
  | _ => none

/-- Numbers of the objects that a value refers to, in the order in which they are written. -/
def refs (v : Value) : List Nat := v.leaves.filterMap ref?

/-- A number whose text is a word; any other leaf. -/
def Plain : Value → Prop
  | number text => PlainWord text.toList
  | _ => True

theorem refs_array (items : List Value) : (array items).refs = items.flatMap refs := by
  rw [refs, leaves, leavesOfItems_eq, List.filterMap_flatMap]
  rfl

theorem refs_wideArray (items : List Value) : (wideArray items).refs = items.flatMap refs := by
  rw [refs, leaves, leavesOfItems_eq, List.filterMap_flatMap]
  rfl

theorem refs_dict (entries : List (String × Value)) :
    (dict entries).refs = entries.flatMap fun entry => entry.2.refs := by
  rw [refs, leaves, leavesOfEntries_eq, List.filterMap_flatMap]
  rfl

open Shows

theorem plainWord_toString (n : Int) : PlainWord (toString n).toList := by
  cases n with
  | ofNat n =>
    have htext : (toString (Int.ofNat n)).toList = Nat.toDigits 10 n := by
      rw [← String.toList_ofList (l := Nat.toDigits 10 n), ← Nat.toString_eq_ofList_toDigits]
      rfl
    rw [htext]
    exact plainWord_toDigits n
  | negSucc n =>
    have htext : (toString (Int.negSucc n)).toList = '-' :: Nat.toDigits 10 (n + 1) := by
      have hminus : toString (Int.negSucc n) = "-" ++ toString (n + 1) := rfl
      rw [hminus, String.toList_append, Nat.toString_eq_ofList_toDigits,
        String.toList_ofList (l := Nat.toDigits 10 (n + 1))]
      rfl
    rw [htext]
    refine plainWord_of_numeric (by simp) ?_
    refine List.forall_mem_cons.2 ⟨by decide, fun c hc => ?_⟩
    simp [numeric, isDigit_toDigits c hc]

theorem plainWord_null : PlainWord null.write.toList :=
  show PlainWord "null".toList by decide +kernel

theorem toList_name (s : String) : (name s).write.toList = '/' :: (nameText s).toList := by
  rw [write, String.toList_append]
  rfl

theorem toList_bytes (data : List UInt8) :
    (bytes data).write.toList = '(' :: ((escapeBytes data).toList ++ [')']) := by
  rw [write, String.toList_append, String.toList_append]
  rfl

theorem toList_ref (id : Nat) :
    (ref id).write.toList = (toString id).toList ++ [' ', '0', ' ', 'R'] := by
  rw [write, String.toList_append]
  rfl

theorem toList_array (items : List Value) :
    (array items).write.toList =
      ['['] ++ ([' '].intercalate (items.map fun item => item.write.toList) ++ [']']) := by
  rw [write, String.toList_append, String.toList_append, String.toList_intercalate, writeItems_eq,
    List.map_map, List.append_assoc]
  rfl

theorem toList_wideArray (items : List Value) :
    (wideArray items).write.toList =
      ['['] ++ ((items.flatMap fun item => ' ' :: item.write.toList) ++ [' ', ']']) := by
  have hspace (item : Value) : (" " ++ item.write).toList = ' ' :: item.write.toList := by
    rw [String.toList_append]
    rfl
  rw [write, String.toList_append, String.toList_append, String.toList_join, writeItems_eq,
    List.map_map, List.flatMap_map, List.append_assoc]
  simp only [Function.comp_apply, hspace]
  rfl

theorem toList_dict (entries : List (String × Value)) :
    (dict entries).write.toList =
      ['<', '<'] ++ ([' '] ++
        ((entries.flatMap fun entry => (writeEntry entry).toList) ++ ['>', '>'])) := by
  rw [write, String.toList_append, String.toList_append, String.toList_join, writeEntries_eq,
    List.flatMap_map, List.append_assoc]
  rfl

theorem toList_writeEntry (key : String) (value : Value) :
    (writeEntry (key, value)).toList =
      ('/' :: (nameText key).toList) ++ ([' '] ++ (value.write.toList ++ [' '])) := by
  rw [writeEntry, String.toList_append, String.toList_append, String.toList_append,
    String.toList_append, List.append_assoc, List.append_assoc]
  rfl

mutual

/-- A text shows the references of its value and no others. -/
theorem shows_write : (v : Value) → (∀ leaf ∈ v.leaves, leaf.Plain) →
    Shows Ends v.write.toList v.refs
  | null, _ => Shows.word plainWord_null
  | integer n, _ => Shows.word (plainWord_toString n)
  | number text, h => Shows.word (h (number text) (List.mem_singleton_self _))
  | name s, _ => by
    rw [toList_name]
    exact Shows.name s
  | bytes data, _ => by
    rw [toList_bytes]
    exact (Shows.string data).mono fun _ _ => trivial
  | ref id, _ => by
    rw [toList_ref]
    exact Shows.ref id
  | array items, h => by
    have hitems := Shows.intercalate (shows_items items h)
    rw [toList_array, refs_array]
    have hclosed := hitems.append ((Shows.bracket rfl).mono fun _ _ => trivial)
      fun rest (_ : Ends rest) => ends_cons (c := ']') rfl rest
    rw [List.append_nil] at hclosed
    exact (Shows.bracket rfl).then_text hclosed
  | wideArray items, h => by
    have hitems := Shows.spaced (shows_items items h)
    have hclose : Shows Ends [' ', ']'] [] :=
      Shows.space.then_text ((Shows.bracket rfl).mono fun _ _ => trivial)
    rw [toList_wideArray, refs_wideArray]
    have hclosed := hitems.append hclose fun rest _ => ends_cons (c := ' ') rfl (']' :: rest)
    rw [List.append_nil] at hclosed
    exact (Shows.bracket rfl).then_text hclosed
  | dict entries, h => by
    have hentries := Shows.flatMap (shows_entries entries h)
    rw [toList_dict, refs_dict]
    have hclosed := hentries.then_text ((Shows.twice (c := '>') rfl).mono
      fun rest (_ : Ends rest) => trivial)
    rw [List.append_nil] at hclosed
    exact (Shows.twice rfl).then_text (Shows.space.then_text hclosed)

theorem shows_items : (items : List Value) → (∀ leaf ∈ leavesOfItems items, leaf.Plain) →
    ∀ item ∈ items, Shows Ends item.write.toList item.refs
  | [], _ => by simp
  | item :: items, h => by
    obtain ⟨hitem, hitems⟩ := List.forall_mem_append.1 h
    exact List.forall_mem_cons.2 ⟨shows_write item hitem, shows_items items hitems⟩

theorem shows_entries : (entries : List (String × Value)) →
    (∀ leaf ∈ leavesOfEntries entries, leaf.Plain) →
    ∀ entry ∈ entries, Shows Anything (writeEntry entry).toList entry.2.refs
  | [], _ => by simp
  | entry :: entries, h => by
    obtain ⟨hentry, hentries⟩ := List.forall_mem_append.1 h
    exact List.forall_mem_cons.2 ⟨shows_entry entry hentry, shows_entries entries hentries⟩

theorem shows_entry : (entry : String × Value) → (∀ leaf ∈ leavesOfEntry entry, leaf.Plain) →
    Shows Anything (writeEntry entry).toList entry.2.refs
  | (key, value), h => by
    have hvalue := (shows_write value h).append Shows.space
      fun rest _ => ends_cons (c := ' ') (by decide) rest
    rw [List.append_nil] at hvalue
    rw [toList_writeEntry]
    exact (Shows.name key).append (Shows.space.then_text hvalue)
      fun rest _ => ends_cons (by decide) _

end

/-- The bytes of a value are its characters. -/
theorem map_asciiChar_write (v : Value) (h : ∀ leaf ∈ v.leaves, leaf.Plain) :
    (utf8 v.write).map asciiChar = v.write.toList := by
  have hascii := (v.shows_write h).ascii
  rw [← String.ofList_toList (s := v.write), utf8_ascii hascii, map_asciiChar_byteOf hascii,
    String.toList_ofList]

end Value

/-! ## Bodies of objects -/

namespace Object

section

variable [Packer]

/-- The value that a body begins with: all of it, or the dictionary of a stream. -/
def front : Object → Value
  | value v => v
  | stream extra data => streamDict extra (.integer (Packer.pack data).length)

def refs (o : Object) : List Nat := o.front.refs

/-- Behind the front of a body there is nothing, or the data of a stream. -/
theorem body_eq (o : Object) :
    ∃ tail, o.body = utf8 o.front.write ++ tail ∧ Ends (tail.map asciiChar) ∧
      ∀ first second, referencesIn first second (words (.word []) (tail.map asciiChar)) = [] := by
  cases o with
  | value v =>
    refine ⟨[], (List.append_nil _).symm, by simp [Ends], fun _ _ => rfl⟩
  | stream extra data =>
    have hword : (utf8 "\nstream\n").map asciiChar = ['\n'] ++ streamWord ++ ['\n'] := by
      decide +kernel
    refine ⟨utf8 "\nstream\n" ++ (Packer.pack data ++ utf8 "\nendstream"), ?_, ?_, ?_⟩
    · rw [body, front]
      simp only [List.append_assoc]
    · rw [List.map_append, hword]
      exact ends_cons (by decide) _
    · intro first second
      rw [List.map_append, hword]
      rfl

/-- What is read in a body as a reference are the references of its object. -/
theorem references_body {o : Object} (h : ∀ leaf ∈ o.front.leaves, leaf.Plain) :
    references o.body = o.refs := by
  obtain ⟨tail, hbody, hends, hnone⟩ := o.body_eq
  obtain ⟨first, second, hfound⟩ :=
    (o.front.shows_write h).found [] [] (tail.map asciiChar) hends
  rw [references, hbody, List.map_append, o.front.map_asciiChar_write h, hfound, hnone,
    List.append_nil, refs]

end

/-- What a string says is no reference. -/
example : references (@body ⟨id⟩
    (.value (.dict [("S", .bytes (utf8 "7 0 R)")), ("K", .ref 3)]))) = [3] := by
  decide +kernel

end Object

/-! ## Where references lead -/

namespace Value

variable {n : Nat}

/-- The references of a value lead to objects among the first `n`, and its numbers are words. -/
def Leads (n : Nat) (v : Value) : Prop :=
  ∀ leaf ∈ v.leaves, leaf.Plain ∧ ∀ id ∈ leaf.ref?, 1 ≤ id ∧ id ≤ n

@[simp] theorem leads_null : Leads n null := by simp [Leads, leaves, Plain, ref?]

@[simp] theorem leads_integer (k : Int) : Leads n (integer k) := by
  simp [Leads, leaves, Plain, ref?]

@[simp] theorem leads_name (s : String) : Leads n (name s) := by simp [Leads, leaves, Plain, ref?]

@[simp] theorem leads_bytes (data : List UInt8) : Leads n (bytes data) := by
  simp [Leads, leaves, Plain, ref?]

@[simp] theorem leads_number (text : String) :
    Leads n (number text) ↔ PlainWord text.toList := by
  simp [Leads, leaves, Plain, ref?]

@[simp] theorem leads_ref (id : Nat) : Leads n (ref id) ↔ 1 ≤ id ∧ id ≤ n := by
  simp [Leads, leaves, Plain, ref?]

@[simp] theorem leads_array (items : List Value) :
    Leads n (array items) ↔ ∀ item ∈ items, Leads n item := by
  unfold Leads
  rw [leaves, leavesOfItems_eq, List.forall_mem_flatMap]

@[simp] theorem leads_wideArray (items : List Value) :
    Leads n (wideArray items) ↔ ∀ item ∈ items, Leads n item := by
  unfold Leads
  rw [leaves, leavesOfItems_eq, List.forall_mem_flatMap]

@[simp] theorem leads_dict (entries : List (String × Value)) :
    Leads n (dict entries) ↔ ∀ entry ∈ entries, Leads n entry.2 := by
  unfold Leads
  rw [leaves, leavesOfEntries_eq, List.forall_mem_flatMap]

end Value

/-- The same is read in the body of an object. -/
theorem Object.references_of_leads [Packer] {o : Object} {n : Nat} (h : o.front.Leads n) :
    ∀ id ∈ references o.body, 1 ≤ id ∧ id ≤ n := by
  rw [references_body fun leaf hleaf => (h leaf hleaf).1]
  intro id hid
  obtain ⟨leaf, hleaf, href⟩ := List.mem_filterMap.1 hid
  exact (h leaf hleaf).2 id href

/-! ## Decimals -/

theorem numeric_placed (places k : Nat) : ∀ c ∈ Decimal.placed places k, numeric c = true := by
  have hdigits (j : Nat) : ∀ c ∈ Nat.toDigits 10 j, numeric c = true := by
    intro c hc
    simp [numeric, isDigit_toDigits c hc]
  unfold Decimal.placed
  dsimp only
  split
  · exact hdigits _
  · refine List.forall_mem_append.2 ⟨hdigits _, List.forall_mem_cons.2 ⟨by decide, ?_⟩⟩
    unfold Decimal.paddedDigits
    refine List.forall_mem_append.2 ⟨fun c hc => ?_, hdigits _⟩
    rw [List.eq_of_mem_replicate hc]
    decide

theorem placed_ne_nil (places k : Nat) : Decimal.placed places k ≠ [] := by
  unfold Decimal.placed
  dsimp only
  split
  · exact Nat.toDigits_ne_nil
  · simp

theorem plainWord_fixedQuotient (places : Nat) (negative : Bool) (num den : Nat) :
    PlainWord (Decimal.fixedQuotient places negative num den).toList := by
  unfold Decimal.fixedQuotient
  dsimp only
  rw [String.toList_ofList]
  have hnumeric := numeric_placed places (Decimal.roundDiv (num * Nat.pow 10 places) den)
  have hne := placed_ne_nil places (Decimal.roundDiv (num * Nat.pow 10 places) den)
  cases negative with
  | false => exact plainWord_of_numeric hne hnumeric
  | true =>
    refine plainWord_of_numeric ?_ (List.forall_mem_cons.2 ⟨by decide, hnumeric⟩)
    exact List.cons_ne_nil _ _

theorem plainWord_fixedFloat (places : Nat) (x : Float) :
    PlainWord (Decimal.fixedFloat places x).toList := by
  unfold Decimal.fixedFloat
  cases Decimal.Binary.ofFloat x with
  | finite negative m e => exact plainWord_fixedQuotient ..
  | infinite negative =>
    cases negative with
    | false => exact show PlainWord "inf".toList by decide +kernel
    | true => exact show PlainWord "-inf".toList by decide +kernel
  | nan => exact show PlainWord "NaN".toList by decide +kernel

/-- Decimals that are written as one word. -/
class PlainDecimals (α : Type) [Scalar α] : Prop where
  plainWord_fixed : ∀ (places : Nat) (x : α), PlainWord (Scalar.fixed places x).toList

instance : PlainDecimals Float := ⟨plainWord_fixedFloat⟩

instance : PlainDecimals Rat := ⟨fun _ _ => plainWord_fixedQuotient ..⟩

end Pdf
end Galley
