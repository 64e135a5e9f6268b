/-
JSON values, as option sets and tag tables are written.  Members stay in the order of the text
and a repeated name stays visible, so that each reader decides what a repetition means.
-/

namespace Galley

inductive Json where
  | null
  | bool (value : Bool)
  /-- A whole number that fits 64 bits. -/
  | natural (n : Nat)
  /-- A negative whole number that fits 64 bits. -/
  | negative (n : Nat)
  | real (x : Float)
  /-- A number beyond the largest double. -/
  | tooLarge
  | text (s : String)
  /-- A string with half of a surrogate pair, which no text can hold. -/
  | brokenText
  | array (items : List Json)
  | object (members : List (String × Json))
  deriving Inhabited

namespace Json

/-! ## Typed views

Each view fails with `none` on a value of another form.
-/

def bool? : Json → Option Bool
  | bool b => some b
  | _ => none

def text? : Json → Option String
  | text s => some s
  | _ => none

/-- Any number, whole or not. -/
def float? : Json → Option Float
  | natural n => some (Float.ofNat n)
  | negative n => some (-Float.ofNat n)
  | real x => some x
  | _ => none

/-- A count.  A number written with a point or an exponent is none, whatever its value. -/
def natBelow? (bound : Nat) : Json → Option Nat
  | natural n => if n < bound then some n else none
  | _ => none

/-- A value or its absence, written as null. -/
def optional? {β : Type} (read : Json → Option β) : Json → Option (Option β)
  | null => some none
  | j => (read j).map some

/-- One of a list of words, plain or as the only member of an object whose value is null. -/
def word? {β : Type} (words : List (String × β)) : Json → Option β
  | text s => words.lookup s
  | object [(s, null)] => words.lookup s
  | _ => none

/-- Members of an object with each value read. -/
def members? {β : Type} (read : Json → Option β) : Json → Option (List (String × β))
  | object ms => ms.mapM fun (key, j) => (read j).map fun value => (key, value)
  | _ => none

/-- The members with the given names, in that order, absent ones as `none`.  Other members are
passed over, a repeated name is refused, and a list stands for the members in order. -/
def fields? (names : List String) : Json → Option (List (Option Json))
  | object ms => names.mapM fun name =>
    match ms.filter fun m => m.1 = name with
    | [] => some none
    | [m] => some (some m.2)
    | _ => none
  | array items =>
    if items.length ≤ names.length then
      some (items.map some ++ List.replicate (names.length - items.length) none)
    else none
  | _ => none

/-- A field's value, or what holds when the field is absent. -/
def orElse? {β : Type} (absent : β) (read : Json → Option β) : Option Json → Option β
  | none => some absent
  | some j => read j

/-- The member of an object with a given name. -/
def member? (name : String) : Json → Option Json
  | object ms => ms.lookup name
  | _ => none

end Json

/-- Reads a text that holds one value. -/
class JsonReader where
  json? : String → Option Json

end Galley
