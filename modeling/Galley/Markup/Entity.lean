import Galley.Text.Hex

/-
Characters written by name or number.
-/

namespace Galley
namespace Markup

/-- The named entities. -/
def namedEntity? : String → Option Char
  | "lt" => some '<'
  | "gt" => some '>'
  | "amp" => some '&'
  | "quot" => some '"'
  | "apos" => some '\x27'
  | "mdash" => some '\u2014'
  | "ndash" => some '\u2013'
  | "nbsp" => some '\u00a0'
  | "hellip" => some '\u2026'
  | "copy" => some '\u00a9'
  | _ => none

def decimalValue? (c : Char) : Option Nat :=
  if '0' ≤ c ∧ c ≤ '9' then some (c.toNat - '0'.toNat) else none

/-- The number that digits spell in a base, the most significant first. -/
def numberFrom? (base : Nat) (digit? : Char → Option Nat) (acc : Nat) : List Char → Option Nat
  | [] => some acc
  | c :: cs => (digit? c).bind fun d => numberFrom? base digit? (base * acc + d) cs

/-- At least one digit, and digits only. -/
def number? (base : Nat) (digit? : Char → Option Nat) (cs : List Char) : Option Nat :=
  if cs.isEmpty then none else numberFrom? base digit? 0 cs

/-- The character of a code point; surrogates and numbers beyond the last plane have none. -/
def scalar? (n : Nat) : Option Char :=
  if n.isValidChar then some (Char.ofNat n) else none

/-- What stands between the ampersand and the semicolon. -/
def entity? (name : List Char) : Option Char :=
  match name with
  | '#' :: 'x' :: digits => (number? 16 Text.hexValue? digits).bind scalar?
  | '#' :: 'X' :: digits => (number? 16 Text.hexValue? digits).bind scalar?
  | '#' :: digits => (number? 10 decimalValue? digits).bind scalar?
  | _ => namedEntity? (String.ofList name)

end Markup
end Galley
