/-
Maps with text keys, held in ascending order of the keys.  Writing a key again replaces its
value.
-/

namespace Galley

/-- Entries of a table, the keys strictly ascending by code points. -/
structure Table (β : Type) where
  entries : List (String × β) := []
  deriving Repr, DecidableEq, Inhabited

namespace Table

variable {β γ : Type}

def empty : Table β := {}

/-- The value written under a key. -/
def findEntry (key : String) : List (String × β) → Option β
  | [] => none
  | (k, v) :: rest => if k = key then some v else findEntry key rest

def find? (t : Table β) (key : String) : Option β := findEntry key t.entries

def contains (t : Table β) (key : String) : Bool := (t.find? key).isSome

def isEmpty (t : Table β) : Bool := t.entries.isEmpty

/-- Puts an entry in its place among ascending keys, over one of the same key. -/
def insertEntry (key : String) (value : β) : List (String × β) → List (String × β)
  | [] => [(key, value)]
  | (k, v) :: rest =>
    if key = k then (key, value) :: rest
    else if key < k then (key, value) :: (k, v) :: rest
    else (k, v) :: insertEntry key value rest

def insert (t : Table β) (key : String) (value : β) : Table β :=
  { entries := insertEntry key value t.entries }

/-- Of two entries with one key the later wins. -/
def ofList (entries : List (String × β)) : Table β :=
  entries.foldl (fun t e => t.insert e.1 e.2) empty

/-- The entries of `u` over those of `t`. -/
def overlay (t u : Table β) : Table β :=
  u.entries.foldl (fun t e => t.insert e.1 e.2) t

theorem findEntry_insertEntry (key k : String) (value : β) (l : List (String × β)) :
    findEntry k (insertEntry key value l) = if key = k then some value else findEntry k l := by
  induction l with
  | nil => simp [insertEntry, findEntry]
  | cons e rest ih => grind [insertEntry, findEntry]

@[simp] theorem find?_insert (t : Table β) (key k : String) (value : β) :
    (t.insert key value).find? k = if key = k then some value else t.find? k :=
  findEntry_insertEntry key k value t.entries

@[simp] theorem find?_empty (k : String) : (empty : Table β).find? k = none := rfl

end Table
end Galley
