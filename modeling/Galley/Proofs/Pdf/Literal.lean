import Galley.Proofs.Pdf.Words

/-
Literal strings as they are read.

A string stands between parentheses, and those inside it come in pairs or behind backslashes.  The
reader goes character by character, where a character stands for a byte, and remembers what it is
within (`Literal.State`).  An escaped byte takes it back to where it was, whatever follows
(`Literal.run_escapeByte`); so escaped data reads back up to the parenthesis that ends it
(`Literal.read?_escapeBytes`).
-/

namespace Galley
namespace Pdf
namespace Literal

/-! ## The reader -/

inductive Place where
  | text
  /-- Behind a backslash. -/
  | escape
  /-- Behind digits of an escape that spell `value`; so many `more` may follow. -/
  | octal (more value : Nat)
  /-- Behind a carriage return, which a line feed may complete. -/
  | lineEnd
  deriving DecidableEq

/-- Where a reader is in a string, within so many parentheses of its own. -/
structure State where
  place : Place
  depth : Nat
  deriving DecidableEq

def start : State := { place := .text, depth := 0 }

def isOctal (c : Char) : Bool := '0' ≤ c && c ≤ '7'

def octalValue (c : Char) : Nat := c.toNat - '0'.toNat

/-- What a letter stands for behind a backslash; any other character stands for itself. -/
def escaped (c : Char) : UInt8 :=
  match c with
  | 'n' => 0x0a
  | 'r' => 0x0d
  | 't' => 0x09
  | 'b' => 0x08
  | 'f' => 0x0c
  | c => byteOf c

/-- The bytes that a character completes, and the state behind it if it does not end the string.
The end of a line counts as a line feed. -/
def textStep (depth : Nat) (c : Char) : List UInt8 × Option State :=
  if c = '\\' then ([], some ⟨.escape, depth⟩)
  else if c = '(' then ([byteOf c], some ⟨.text, depth + 1⟩)
  else if c = ')' then
    if depth = 0 then ([], none) else ([byteOf c], some ⟨.text, depth - 1⟩)
  else if c = '\r' then ([0x0a], some ⟨.lineEnd, depth⟩)
  else ([byteOf c], some ⟨.text, depth⟩)

/-- The end of a line behind a backslash is left out. -/
def escapeStep (depth : Nat) (c : Char) : List UInt8 × Option State :=
  if isOctal c then ([], some ⟨.octal 2 (octalValue c), depth⟩)
  else if c = '\r' then ([], some ⟨.lineEnd, depth⟩)
  else if c = '\n' then ([], some ⟨.text, depth⟩)
  else ([escaped c], some ⟨.text, depth⟩)

/-- Of a number that is too large for a byte the low bits count. -/
def octalStep (more value depth : Nat) (c : Char) : List UInt8 × Option State :=
  if isOctal c then
    if more ≤ 1 then ([UInt8.ofNat (8 * value + octalValue c)], some ⟨.text, depth⟩)
    else ([], some ⟨.octal (more - 1) (8 * value + octalValue c), depth⟩)
  else (UInt8.ofNat value :: (textStep depth c).1, (textStep depth c).2)

def step (s : State) (c : Char) : List UInt8 × Option State :=
  match s.place with
  | .text => textStep s.depth c
  | .escape => escapeStep s.depth c
  | .octal more value => octalStep more value s.depth c
  | .lineEnd => if c = '\n' then ([], some ⟨.text, s.depth⟩) else textStep s.depth c

/-- The rest of a string, and what follows behind its end. -/
def read? : State → List Char → Option (List UInt8 × List Char)
  | _, [] => none
  | s, c :: cs =>
    match step s c with
    | (data, none) => some (data, cs)
    | (data, some next) => (read? next cs).map fun (more, rest) => (data ++ more, rest)

/-! ## Escaped data -/

/-- The bytes that characters complete within a string, and the state behind them. -/
def run : State → List Char → Option (List UInt8 × State)
  | s, [] => some ([], s)
  | s, c :: cs =>
    match step s c with
    | (_, none) => none
    | (data, some next) => (run next cs).map fun (more, last) => (data ++ more, last)

theorem read?_append {s last : State} {cs : List Char} {data : List UInt8}
    (h : run s cs = some (data, last)) (rest : List Char) :
    read? s (cs ++ rest) = (read? last rest).map fun (more, rest) => (data ++ more, rest) := by
  induction cs generalizing s data with
  | nil =>
    cases h
    simp
  | cons c cs ih =>
    rw [run] at h
    rw [List.cons_append, read?]
    split at h
    · cases h
    · next found next hstep =>
      obtain ⟨⟨more, final⟩, hrun, hboth⟩ := Option.map_eq_some_iff.1 h
      cases hboth
      rw [ih hrun, Option.map_map]
      simp [Function.comp_def]

theorem run_escapeByte : ∀ b : UInt8, run start (escapeByte b) = some ([b], start) :=
  forall_byte (by decide +kernel)

/-- The string ends where it was ended, and not before. -/
theorem read?_escapeBytes (data : List UInt8) (rest : List Char) :
    read? start (data.flatMap escapeByte ++ ')' :: rest) = some (data, rest) := by
  induction data with
  | nil => rfl
  | cons b data ih =>
    rw [List.flatMap_cons, List.append_assoc, read?_append (run_escapeByte b), ih]
    rfl

/-- A digit behind an escaped byte does not belong to it. -/
example : read? start (([0x01, 0x37, 0x28] : List UInt8).flatMap escapeByte ++ [')', 'x']) =
    some ([0x01, 0x37, 0x28], ['x']) := by
  decide

theorem printable_escapeByte :
    ∀ b : UInt8, (escapeByte b).all (fun c => 0x20 ≤ c.toNat && c.toNat ≤ 0x7e) = true :=
  forall_byte (by decide +kernel)

theorem printable_escapeBytes (data : List UInt8) :
    ∀ c ∈ (escapeBytes data).toList, 0x20 ≤ c.toNat ∧ c.toNat ≤ 0x7e := by
  intro c hc
  rw [escapeBytes, String.toList_ofList] at hc
  obtain ⟨b, -, hb⟩ := List.mem_flatMap.1 hc
  simpa using List.all_eq_true.1 (printable_escapeByte b) c hb

end Literal
end Pdf
end Galley
