import Galley.Json.Number
import Galley.Text.Hex

/-
Reads JSON text.  The fuel of the mutual recursion is the length of the text: each step reads at
least one character.
-/

namespace Galley
namespace Json

def isBlank (c : Char) : Bool := c = ' ' || c = '\n' || c = '\t' || c = '\r'

def skipBlanks (cs : List Char) : List Char := cs.dropWhile isBlank

/-- Four hexadecimal digits. -/
def readUnit : List Char → Option (Nat × List Char)
  | a :: b :: c :: d :: rest => do
    let a ← Text.hexValue? a
    let b ← Text.hexValue? b
    let c ← Text.hexValue? c
    let d ← Text.hexValue? d
    some (((a * 16 + b) * 16 + c) * 16 + d, rest)
  | _ => none

/-- The character of an escape of one letter. -/
def simpleEscape? : Char → Option Char
  | '"' => some '"'
  | '\\' => some '\\'
  | '/' => some '/'
  | 'b' => some '\x08'
  | 'f' => some '\x0c'
  | 'n' => some '\n'
  | 'r' => some '\r'
  | 't' => some '\t'
  | _ => none

/-- Characters of a string up to its closing quote, and what follows.  Half of a surrogate pair
is read as `none`. -/
def readChars : Nat → List Char → Option (List (Option Char) × List Char)
  | 0, _ => none
  | _ + 1, [] => none
  | _ + 1, '"' :: rest => some ([], rest)
  | fuel + 1, '\\' :: 'u' :: rest => do
    let (unit, rest) ← readUnit rest
    let pair? := if 0xD800 ≤ unit ∧ unit < 0xDC00 then
        match rest with
        | '\\' :: 'u' :: r =>
          match readUnit r with
          | some (low, r) =>
            if 0xDC00 ≤ low ∧ low < 0xE000 then
              some (0x10000 + (unit - 0xD800) * 0x400 + (low - 0xDC00), r)
            else none
          | none => none
        | _ => none
      else none
    let (c, rest) := match pair? with
      | some (n, r) => (some (Char.ofNat n), r)
      | none => (if unit.isValidChar then some (Char.ofNat unit) else none, rest)
    let (more, rest) ← readChars fuel rest
    some (c :: more, rest)
  | fuel + 1, '\\' :: c :: rest => do
    let c ← simpleEscape? c
    let (more, rest) ← readChars fuel rest
    some (some c :: more, rest)
  | fuel + 1, c :: rest => do
    if c.toNat < 0x20 then none
    let (more, rest) ← readChars fuel rest
    some (some c :: more, rest)

def ofChars (cs : List (Option Char)) : Json :=
  match cs.mapM id with
  | some cs => text (String.ofList cs)
  | none => brokenText

/-- A given word. -/
def readWord (word : List Char) (value : Json) (cs : List Char) : Option (Json × List Char) :=
  if word.isPrefixOf cs then some (value, cs.drop word.length) else none

mutual

def readValue : Nat → List Char → Option (Json × List Char)
  | 0, _ => none
  | fuel + 1, cs =>
    match skipBlanks cs with
    | [] => none
    | '"' :: rest => do
      let (cs, rest) ← readChars (rest.length + 1) rest
      some (ofChars cs, rest)
    | '[' :: rest =>
      match skipBlanks rest with
      | ']' :: rest => some (array [], rest)
      | rest => do
        let (items, rest) ← readItems fuel rest
        some (array items, rest)
    | '\x7b' :: rest =>
      match skipBlanks rest with
      | '\x7d' :: rest => some (object [], rest)
      | rest => do
        let (members, rest) ← readMembers fuel rest
        some (object members, rest)
    | 'n' :: rest => readWord ['u', 'l', 'l'] null rest
    | 't' :: rest => readWord ['r', 'u', 'e'] (bool true) rest
    | 'f' :: rest => readWord ['a', 'l', 's', 'e'] (bool false) rest
    | cs => readNumber cs

/-- Items up to the closing bracket. -/
def readItems : Nat → List Char → Option (List Json × List Char)
  | 0, _ => none
  | fuel + 1, cs => do
    let (item, rest) ← readValue fuel cs
    match skipBlanks rest with
    | ',' :: rest =>
      let (more, rest) ← readItems fuel rest
      some (item :: more, rest)
    | ']' :: rest => some ([item], rest)
    | _ => none

/-- Members up to the closing brace. -/
def readMembers : Nat → List Char → Option (List (String × Json) × List Char)
  | 0, _ => none
  | fuel + 1, cs => do
    match skipBlanks cs with
    | '"' :: rest =>
      let (name, rest) ← readChars (rest.length + 1) rest
      let name ← name.mapM id
      match skipBlanks rest with
      | ':' :: rest =>
        let (value, rest) ← readValue fuel rest
        match skipBlanks rest with
        | ',' :: rest =>
          let (more, rest) ← readMembers fuel rest
          some ((String.ofList name, value) :: more, rest)
        | '\x7d' :: rest => some ([(String.ofList name, value)], rest)
        | _ => none
      | _ => none
    | _ => none

end

/-- A text that holds one value and nothing else. -/
def ofText? (s : String) : Option Json := do
  let cs := s.toList
  let (value, rest) ← readValue (2 * cs.length + 2) cs
  if (skipBlanks rest).isEmpty then some value else none

instance : JsonReader where
  json? := ofText?

end Json
end Galley
