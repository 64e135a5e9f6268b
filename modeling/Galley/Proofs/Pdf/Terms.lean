import Galley.Proofs.Pdf.Literal
import Galley.Proofs.Pdf.Names

/-
Terms as they are read.

A reader goes through a text once and builds what the text says: words, references, names, strings,
and the arrays and dictionaries that they stand in (`readTerms?`).  It keeps the brackets that are
open, each with what it has read before them.  What it does with a text depends on nothing before it
but a bracket or a blank, and it takes notice of a word or a name only at the character behind; so
`Reads` says of a text what it adds to what has been read, and texts are put together from there.
-/

namespace Galley
namespace Pdf

/-- What a text says. -/
inductive Term where
  /-- A number or a keyword. -/
  | word (cs : List Char)
  | ref (id generation : Nat)
  | name (data : List UInt8)
  | string (data : List UInt8)
  | array (items : List Term)
  | dict (entries : List (List UInt8 × Term))

/-! ## The reader -/

def isBlank (c : Char) : Bool := c ∈ ['\x00', '\t', '\n', '\x0c', '\r', ' ']

def isDelimiter (c : Char) : Bool := c ∈ ['(', ')', '<', '>', '[', ']', '{', '}', '/', '%']

/-- Characters that words and names consist of. -/
def isRegular (c : Char) : Bool := !isBlank c && !isDelimiter c

inductive Mode where
  /-- Behind the first characters of a name or, without a slash, of a word; the last of them comes
  first. -/
  | token (slash : Bool) (read : List Char)
  /-- In a string, behind the bytes `data` of it. -/
  | string (state : Literal.State) (data : List UInt8)
  /-- Behind the first bracket of a dictionary. -/
  | opening
  /-- Behind the first bracket that closes a dictionary. -/
  | closing

/-- Behind nothing that goes on. -/
def Mode.between : Mode := .token false []

inductive Bracket where
  | array
  | dict

structure Reader where
  mode : Mode
  /-- Terms behind the innermost bracket, the last of them first. -/
  read : List Term
  /-- Open brackets from the innermost out, each with the terms before it. -/
  outer : List (Bracket × List Term)

namespace Reader

def start : Reader := { mode := .between, read := [], outer := [] }

def put (r : Reader) (t : Term) : Reader := { r with mode := .between, read := t :: r.read }

/-- The reference that two numbers make, the latter of them first. -/
def takeRef? : List Term → Option (List Term)
  | .word generation :: .word id :: read => do
    let id ← Decimal.digits? id
    let generation ← Decimal.digits? generation
    return .ref id generation :: read
  | _ => none

/-- The word `R` makes a reference of the numbers before it. -/
def addWord (cs : List Char) (read : List Term) : List Term :=
  if cs = ['R'] then (takeRef? read).getD (.word cs :: read) else .word cs :: read

/-- Takes notice of the word or name that has been read. -/
def settle? (r : Reader) : Option Reader :=
  match r.mode with
  | .token slash read =>
    if slash then (decodeName? read.reverse).map fun data => r.put (.name data)
    else if read = [] then some r
    else some { r with mode := .between, read := addWord read.reverse r.read }
  | _ => none

/-- Keys and values of a dictionary take turns. -/
def pairs? : List Term → Option (List (List UInt8 × Term))
  | [] => some []
  | .name key :: value :: rest => (pairs? rest).map ((key, value) :: ·)
  | _ => none

def enter (r : Reader) (bracket : Bracket) : Reader :=
  { mode := .between, read := [], outer := (bracket, r.read) :: r.outer }

def closeArray? (r : Reader) : Option Reader :=
  match r.outer with
  | (.array, before) :: outer =>
    some { mode := .between, read := .array r.read.reverse :: before, outer }
  | _ => none

def closeDict? (r : Reader) : Option Reader :=
  match r.outer with
  | (.dict, before) :: outer =>
    (pairs? r.read.reverse).map fun entries =>
      { mode := .between, read := .dict entries :: before, outer }
  | _ => none

/-- A character that ends words and names, behind what has been taken notice of. -/
def delimit? (r : Reader) (c : Char) : Option Reader :=
  if isBlank c then some r
  else
    match c with
    | '(' => some { r with mode := .string Literal.start [] }
    | '/' => some { r with mode := .token true [] }
    | '[' => some (r.enter .array)
    | ']' => r.closeArray?
    | '<' => some { r with mode := .opening }
    | '>' => some { r with mode := .closing }
    | _ => none

def step? (r : Reader) (c : Char) : Option Reader :=
  match r.mode with
  | .token slash read =>
    if isRegular c then some { r with mode := .token slash (c :: read) }
    else r.settle?.bind fun r => r.delimit? c
  | .string state data =>
    match Literal.step state c with
    | (more, some next) => some { r with mode := .string next (data ++ more) }
    | (more, none) => some (r.put (.string (data ++ more)))
  | .opening => if c = '<' then some (r.enter .dict) else none
  | .closing => if c = '>' then r.closeDict? else none

def run? (r : Reader) (cs : List Char) : Option Reader := cs.foldlM step? r

end Reader

/-- All terms of a text. -/
def readTerms? (cs : List Char) : Option (List Term) := do
  let r ← Reader.start.run? cs
  let r ← r.settle?
  guard r.outer.isEmpty
  return r.read.reverse

namespace Reader

variable {r s : Reader} {cs : List Char}

theorem run?_append (r : Reader) (cs rest : List Char) :
    r.run? (cs ++ rest) = (r.run? cs).bind fun s => s.run? rest := List.foldlM_append

@[simp] theorem run?_nil (r : Reader) : r.run? [] = some r := rfl

theorem run?_cons (r : Reader) (c : Char) (cs : List Char) :
    r.run? (c :: cs) = (r.step? c).bind fun s => s.run? cs := List.foldlM_cons

/-- What a reader does behind a text that it has read. -/
theorem run?_of_run? (h : r.run? cs = some s) (rest : List Char) :
    r.run? (cs ++ rest) = s.run? rest := by
  rw [run?_append, h, Option.bind_some]

/-! ## Words and names -/

theorem mode_of_settle? (h : r.settle? = some s) : s.mode = .between := by
  unfold settle? at h
  split at h
  · next slash read hmode =>
    split at h
    · obtain ⟨data, -, rfl⟩ := Option.map_eq_some_iff.1 h
      rfl
    · next hslash =>
      rw [Bool.not_eq_true] at hslash
      split at h
      · next hread =>
        cases h
        rw [hmode, hslash, hread]
        rfl
      · cases h
        rfl
  · cases h

/-- What ends a word or a name comes after it has been taken notice of. -/
theorem step?_of_settle? (h : r.settle? = some s) {c : Char} (hc : isRegular c = false) :
    r.step? c = s.delimit? c := by
  unfold step?
  cases hmode : r.mode with
  | token slash read =>
    dsimp only
    rw [hc, h]
    rfl
  | _ =>
    unfold settle? at h
    rw [hmode] at h
    cases h

theorem settle?_of_between (h : r.mode = .between) : r.settle? = some r := by
  unfold settle?
  rw [h]
  rfl

theorem step?_of_between (h : r.mode = .between) {c : Char} (hc : isRegular c = false) :
    r.step? c = r.delimit? c := step?_of_settle? (settle?_of_between h) hc

theorem step?_blank (h : r.settle? = some s) : r.step? ' ' = some s :=
  step?_of_settle? h (by decide)

theorem run?_regular (h : ∀ c ∈ cs, isRegular c = true) (slash : Bool) (read : List Char) :
    { r with mode := .token slash read }.run? cs =
      some { r with mode := .token slash (cs.reverse ++ read) } := by
  induction cs generalizing read with
  | nil => rfl
  | cons c cs ih =>
    obtain ⟨hc, hcs⟩ := List.forall_mem_cons.1 h
    have hstep : { r with mode := .token slash read }.step? c =
        some { r with mode := .token slash (c :: read) } := by
      unfold step?
      dsimp only
      rw [if_pos hc]
    rw [run?_cons, hstep, Option.bind_some, ih hcs, List.reverse_cons, List.append_assoc,
      List.singleton_append]

theorem addWord_of_ne {word : List Char} (h : word ≠ ['R']) (read : List Term) :
    addWord word read = .word word :: read := if_neg h

theorem isRegular_of_plain {c : Char} (h : plain c = true) : isRegular c = true := by
  have hword : [c].all plain = true := by simpa using h
  have hascii : c.toNat < 128 := ascii_of_plain hword c (List.mem_singleton_self c)
  exact forall_ascii (p := fun c => plain c = true → isRegular c = true) (by decide +kernel)
    hascii h

end Reader

open Reader

/-- Read in between, a text adds one term, whatever has been read before.  The reader may still take
its last characters for the first ones of a word or a name. -/
def Reads (text : List Char) (t : Term) : Prop :=
  ∀ r : Reader, r.mode = .between → ∃ s, r.run? text = some s ∧ s.settle? = some (r.put t)

namespace Reads

variable {text : List Char} {t : Term}

theorem word {cs : List Char} (h : PlainWord cs) : Reads cs (.word cs) := by
  intro r hr
  have hregular : ∀ c ∈ cs, isRegular c = true :=
    fun c hc => isRegular_of_plain (List.all_eq_true.1 h.plain c hc)
  have hread := run?_regular (r := r) hregular false []
  have hstart : { r with mode := .token false [] } = r := by
    cases r
    cases hr
    rfl
  rw [hstart, List.append_nil] at hread
  refine ⟨_, hread, ?_⟩
  unfold settle?
  dsimp only
  rw [if_neg (by decide), if_neg (by simpa using h.nonempty), List.reverse_reverse,
    addWord_of_ne h.noMark]
  rfl

theorem name (s : String) : Reads ('/' :: (nameText s).toList) (.name (utf8 s)) := by
  intro r hr
  have hregular : ∀ c ∈ (nameText s).toList, isRegular c = true :=
    fun c hc => isRegular_of_plain (List.all_eq_true.1 (plain_nameText s) c hc)
  have hslash : r.step? '/' = some { r with mode := .token true [] } :=
    step?_of_between hr (by decide)
  have hread : r.run? ('/' :: (nameText s).toList) =
      some { r with mode := .token true ((nameText s).toList.reverse ++ []) } := by
    rw [run?_cons, hslash]
    exact run?_regular hregular true []
  refine ⟨_, hread, ?_⟩
  unfold settle?
  dsimp only
  rw [if_pos rfl, List.append_nil, List.reverse_reverse, decodeName?_nameText]
  rfl

/-- The parenthesis that ends a string is the last of its text. -/
theorem run?_string {state : Literal.State} {cs rest : List Char} {data more : List UInt8}
    (h : Literal.read? state cs = some (more, rest)) (r : Reader) :
    { r with mode := .string state data }.run? cs =
      (r.put (.string (data ++ more))).run? rest := by
  induction cs generalizing state data more with
  | nil => cases h
  | cons c cs ih =>
    rw [Literal.read?] at h
    rw [run?_cons]
    unfold step?
    dsimp only
    split at h
    · next found hstep =>
      cases h
      rw [hstep]
      rfl
    · next found next hstep =>
      obtain ⟨⟨behind, end_⟩, hread, hboth⟩ := Option.map_eq_some_iff.1 h
      cases hboth
      rw [hstep]
      dsimp only
      rw [Option.bind_some, ih hread, List.append_assoc]

theorem string (data : List UInt8) :
    Reads ('(' :: ((escapeBytes data).toList ++ [')'])) (.string data) := by
  intro r hr
  have hopen : r.step? '(' = some { r with mode := .string Literal.start [] } :=
    step?_of_between hr (by decide)
  have hread : r.run? ('(' :: ((escapeBytes data).toList ++ [')'])) =
      some (r.put (.string data)) := by
    rw [run?_cons, hopen, Option.bind_some, escapeBytes, String.toList_ofList,
      run?_string (Literal.read?_escapeBytes data []), List.nil_append, run?_nil]
  exact ⟨_, hread, settle?_of_between rfl⟩

/-- A reference takes the place of the numbers in it. -/
theorem ref (id : Nat) : Reads ((toString id).toList ++ [' ', '0', ' ', 'R']) (.ref id 0) := by
  intro r hr
  obtain ⟨s, hid, hsettle⟩ := Reads.word (plainWord_toDigits id) r hr
  have hread : r.run? ((toString id).toList ++ [' ', '0', ' ', 'R']) = some { r with
      mode := .token false ['R']
      read := .word ['0'] :: .word (Nat.toDigits 10 id) :: r.read } := by
    rw [Nat.toString_eq_ofList_toDigits, String.toList_ofList, run?_of_run? hid, run?_cons,
      step?_blank hsettle]
    rfl
  have hzero : Decimal.digits? ['0'] = some 0 := by decide
  refine ⟨_, hread, ?_⟩
  unfold settle?
  dsimp only
  rw [if_neg (by decide), if_neg (by simp), List.reverse_singleton, addWord, if_pos rfl, takeRef?,
    digits?_toDigits, hzero]
  rfl

end Reads

/-! ## Terms one after the other -/

namespace Reader

def putAll (r : Reader) (ts : List Term) : Reader :=
  { r with mode := .between, read := ts.reverse ++ r.read }

theorem putAll_nil {r : Reader} (h : r.mode = .between) : r.putAll [] = r := by
  cases r
  cases h
  rfl

theorem putAll_cons (r : Reader) (t : Term) (ts : List Term) :
    r.putAll (t :: ts) = (r.put t).putAll ts := by
  simp [putAll, put]

theorem putAll_append (r : Reader) (ts more : List Term) :
    r.putAll (ts ++ more) = (r.putAll ts).putAll more := by
  simp [putAll]

end Reader

/-- Read in between, a text adds some terms, and the reader is in between again. -/
def Adds (text : List Char) (ts : List Term) : Prop :=
  ∀ r : Reader, r.mode = .between → r.run? text = some (r.putAll ts)

theorem Reads.blank {text : List Char} {t : Term} (h : Reads text t) {c : Char}
    (hc : isBlank c = true) : Adds (text ++ [c]) [t] := by
  intro r hr
  obtain ⟨s, hread, hsettle⟩ := h r hr
  have hregular : isRegular c = false := by
    unfold isRegular
    rw [hc]
    rfl
  have hstep : s.step? c = some (r.put t) := by
    rw [step?_of_settle? hsettle hregular]
    unfold delimit?
    rw [if_pos hc]
  rw [run?_of_run? hread, run?_cons, hstep]
  rfl

namespace Adds

variable {text more : List Char} {ts us : List Term}

theorem nil : Adds [] [] := fun r hr => by rw [putAll_nil hr, run?_nil]

theorem append (h : Adds text ts) (hmore : Adds more us) : Adds (text ++ more) (ts ++ us) := by
  intro r hr
  rw [run?_of_run? (h r hr), hmore _ rfl, putAll_append]

theorem flatMap {β : Type} {text : β → List Char} {terms : β → List Term} {items : List β}
    (h : ∀ item ∈ items, Adds (text item) (terms item)) :
    Adds (items.flatMap text) (items.flatMap terms) := by
  induction items with
  | nil => exact nil
  | cons item items ih =>
    obtain ⟨hitem, hitems⟩ := List.forall_mem_cons.1 h
    exact hitem.append (ih hitems)

theorem readTerms? (h : Adds text ts) : readTerms? text = some ts := by
  have hread := h start rfl
  unfold Pdf.readTerms?
  rw [hread, Option.bind_eq_bind, Option.bind_some, settle?_of_between rfl]
  simp [putAll, start, guard]

end Adds

namespace Reads

theorem readTerms? {text : List Char} {t : Term} (h : Reads text t) :
    readTerms? text = some [t] := by
  obtain ⟨s, hread, hsettle⟩ := h start rfl
  unfold Pdf.readTerms?
  rw [hread, Option.bind_eq_bind, Option.bind_some, hsettle]
  simp [put, start, guard]

/-! ## Arrays -/

section

variable {β : Type} {text : β → List Char} {term : β → Term} {items : List β}
  (h : ∀ item ∈ items, Reads (text item) (term item))

include h

/-- Texts that stand behind blanks, the first of them behind a text that has not been taken notice
of. -/
theorem spaced {r s : Reader} (hsettle : r.settle? = some s) :
    ∃ last, r.run? (items.flatMap fun item => ' ' :: text item) = some last ∧
      last.settle? = some (s.putAll (items.map term)) := by
  induction items generalizing r s with
  | nil => exact ⟨r, rfl, by rw [hsettle, List.map_nil, putAll_nil (mode_of_settle? hsettle)]⟩
  | cons item items ih =>
    obtain ⟨hitem, hitems⟩ := List.forall_mem_cons.1 h
    obtain ⟨next, hread, hnext⟩ := hitem s (mode_of_settle? hsettle)
    obtain ⟨last, hmore, hlast⟩ := ih hitems hnext
    have hfirst : r.run? (' ' :: text item) = some next := by
      rw [run?_cons, step?_blank hsettle, Option.bind_some, hread]
    refine ⟨last, ?_, ?_⟩
    · rw [List.flatMap_cons, run?_of_run? hfirst, hmore]
    · rw [hlast, List.map_cons, putAll_cons]

omit h in
theorem run?_closeArray {r last : Reader} {ts : List Term}
    (hlast : last.settle? = some ((r.enter .array).putAll ts)) :
    last.run? [']'] = some (r.put (.array ts)) := by
  rw [run?_cons, step?_of_settle? hlast (by decide)]
  simp [delimit?, isBlank, closeArray?, putAll, enter, put]

omit h in
theorem step?_openArray {r : Reader} (hr : r.mode = .between) :
    r.step? '[' = some (r.enter .array) := step?_of_between hr (by decide)

theorem array :
    Reads ('[' :: ([' '].intercalate (items.map text) ++ [']'])) (.array (items.map term)) := by
  intro r hr
  have hitems : ∃ last, (r.enter .array).run? ([' '].intercalate (items.map text)) = some last ∧
      last.settle? = some ((r.enter .array).putAll (items.map term)) := by
    cases items with
    | nil => exact ⟨r.enter .array, rfl, rfl⟩
    | cons item items =>
      obtain ⟨hitem, hitems⟩ := List.forall_mem_cons.1 h
      obtain ⟨next, hread, hnext⟩ := hitem (r.enter .array) rfl
      obtain ⟨last, hmore, hlast⟩ := spaced hitems hnext
      refine ⟨last, ?_, ?_⟩
      · rw [Shows.intercalate_cons, run?_of_run? hread, hmore]
      · rw [hlast, List.map_cons, putAll_cons]
  obtain ⟨last, hread, hlast⟩ := hitems
  refine ⟨r.put (.array (items.map term)), ?_, settle?_of_between rfl⟩
  rw [run?_cons, step?_openArray hr, Option.bind_some, run?_of_run? hread, run?_closeArray hlast]

theorem wideArray :
    Reads ('[' :: ((items.flatMap fun item => ' ' :: text item) ++ [' ', ']']))
      (.array (items.map term)) := by
  intro r hr
  obtain ⟨last, hread, hlast⟩ :=
    spaced h (settle?_of_between (show (r.enter .array).mode = .between from rfl))
  refine ⟨r.put (.array (items.map term)), ?_, settle?_of_between rfl⟩
  rw [run?_cons, step?_openArray hr, Option.bind_some, run?_of_run? hread, run?_cons,
    step?_blank hlast, Option.bind_some]
  exact run?_closeArray (settle?_of_between rfl)

end

/-! ## Dictionaries -/

theorem pairs?_flatMap {β : Type} (key : β → List UInt8) (term : β → Term) (items : List β) :
    pairs? (items.flatMap fun item => [.name (key item), term item]) =
      some (items.map fun item => (key item, term item)) := by
  induction items with
  | nil => rfl
  | cons item items ih =>
    rw [List.flatMap_cons, List.cons_append, List.singleton_append, pairs?, ih]
    rfl

theorem dict {β : Type} {text : β → List Char} {key : β → List UInt8} {term : β → Term}
    {items : List β}
    (h : ∀ item ∈ items, Adds (text item) [.name (key item), term item]) :
    Reads (['<', '<', ' '] ++ (items.flatMap text ++ ['>', '>']))
      (.dict (items.map fun item => (key item, term item))) := by
  intro r hr
  have hopen : r.run? ['<', '<', ' '] = some (r.enter .dict) := by
    have hstep : r.step? '<' = some { r with mode := .opening } :=
      step?_of_between hr (by decide)
    rw [run?_cons, hstep]
    rfl
  have hclose : ((r.enter .dict).putAll
      (items.flatMap fun item => [.name (key item), term item])).run? ['>', '>'] =
        some (r.put (.dict (items.map fun item => (key item, term item)))) := by
    have hstep (s : Reader) (hs : s.mode = .between) :
        s.step? '>' = some { s with mode := .closing } := step?_of_between hs (by decide)
    rw [run?_cons, hstep _ rfl, Option.bind_some, run?_cons]
    simp [step?, closeDict?, putAll, enter, put, pairs?_flatMap]
  refine ⟨r.put (.dict (items.map fun item => (key item, term item))), ?_,
    settle?_of_between rfl⟩
  rw [run?_of_run? hopen, run?_of_run? (Adds.flatMap h _ rfl), hclose]

end Reads

end Pdf
end Galley
