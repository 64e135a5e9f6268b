import Mathlib
import Galley.Pdf.Escape

/-
Text as bytes, and numbers read from bytes.

What a document writes as text is put together from strings, and its bytes are those of the strings
one after the other.  A decimal digit is one byte, so a number that stands in a document is read
back from its digits, also with zeros in front of them (`number?_digits`).
-/

namespace Galley
namespace Pdf

/-! ## Bytes of strings -/

theorem toList_loop (data : ByteArray) (i : Nat) (done : List UInt8) :
    ByteArray.toList.loop data i done = done.reverse ++ data.data.toList.drop i := by
  fun_induction ByteArray.toList.loop data i done with
  | case1 i done h ih =>
    have hi : i < data.data.toList.length := by simpa using h
    rw [ih, List.drop_eq_getElem_cons hi]
    simp [ByteArray.get!, h]
  | case2 i done h =>
    rw [List.drop_eq_nil_of_le (by simpa using Nat.le_of_not_lt h), List.append_nil]

theorem utf8_eq_data (s : String) : utf8 s = s.toByteArray.data.toList := by
  unfold utf8 ByteArray.toList
  rw [toList_loop, List.reverse_nil, List.nil_append, List.drop_zero]
  rfl

theorem utf8_injective : Function.Injective utf8 := by
  intro s t h
  rw [utf8_eq_data, utf8_eq_data] at h
  exact String.toByteArray_inj.1 (ByteArray.ext (Array.ext' h))

theorem utf8_eq (s : String) : utf8 s = s.toList.flatMap String.utf8EncodeChar := by
  rw [utf8_eq_data, ← String.utf8Encode_toList, List.utf8Encode, List.data_toByteArray]

@[simp] theorem utf8_append (s t : String) : utf8 (s ++ t) = utf8 s ++ utf8 t := by
  rw [utf8_eq, utf8_eq, utf8_eq, String.toList_append, List.flatMap_append]

theorem utf8_join (strings : List String) :
    utf8 (String.join strings) = strings.flatMap utf8 := by
  induction strings with
  | nil => rw [String.join_nil, utf8_eq, String.toList_empty, List.flatMap_nil, List.flatMap_nil]
  | cons s strings ih => rw [String.join_cons, utf8_append, ih, List.flatMap_cons]

/-! ## Plain text -/

/-- The byte of a character that takes one. -/
def byteOf (c : Char) : UInt8 := UInt8.ofNat c.toNat

theorem asciiChar_byteOf {c : Char} (h : c.toNat < 128) : asciiChar (byteOf c) = c := by
  unfold asciiChar byteOf
  rw [UInt8.toNat_ofNat', Nat.mod_eq_of_lt (by omega), Char.ofNat_toNat]

theorem utf8_ascii {cs : List Char} (h : ∀ c ∈ cs, c.toNat < 128) :
    utf8 (String.ofList cs) = cs.map byteOf := by
  rw [utf8_eq, String.toList_ofList]
  induction cs with
  | nil => rfl
  | cons c cs ih =>
    obtain ⟨hc, hcs⟩ := List.forall_mem_cons.1 h
    have hone : String.utf8EncodeChar c = [byteOf c] := by
      unfold String.utf8EncodeChar
      exact if_pos (show c.toNat ≤ 127 by omega)
    rw [List.flatMap_cons, hone, ih hcs]
    rfl

theorem map_asciiChar_byteOf {cs : List Char} (h : ∀ c ∈ cs, c.toNat < 128) :
    (cs.map byteOf).map asciiChar = cs := by
  rw [List.map_map]
  exact (List.map_congr_left fun c hc => asciiChar_byteOf (h c hc)).trans (List.map_id cs)

/-! ## Digits -/

theorem digit_lt {c : Char} (h : c.isDigit = true) : c.toNat < 128 := by
  have hle : c.toNat ≤ 57 := (Char.isDigit_iff_toNat.1 h).2
  omega

theorem utf8_digits {cs : List Char} (h : ∀ c ∈ cs, c.isDigit = true) :
    utf8 (String.ofList cs) = cs.map byteOf :=
  utf8_ascii fun c hc => digit_lt (h c hc)

def isDigit (b : UInt8) : Bool := (asciiChar b).isDigit

/-- The number that digits spell. -/
def digitsValue (digits : List UInt8) : Nat := Nat.ofDigitChars 10 (digits.map asciiChar) 0

theorem isDigit_byteOf {c : Char} (h : c.isDigit = true) : isDigit (byteOf c) = true := by
  unfold isDigit
  rw [asciiChar_byteOf (digit_lt h), h]

theorem digitsValue_map {cs : List Char} (h : ∀ c ∈ cs, c.isDigit = true) :
    digitsValue (cs.map byteOf) = Nat.ofDigitChars 10 cs 0 := by
  rw [digitsValue, map_asciiChar_byteOf fun c hc => digit_lt (h c hc)]

/-! ## Numbers at the start of some bytes -/

/-- The number that some bytes start with, and what follows it. -/
def number? (data : List UInt8) : Option (Nat × List UInt8) :=
  if (data.takeWhile isDigit).isEmpty then none
  else some (digitsValue (data.takeWhile isDigit), data.dropWhile isDigit)

theorem number?_digits {cs : List Char} (hne : cs ≠ []) (h : ∀ c ∈ cs, c.isDigit = true)
    {rest : List UInt8} (hrest : ∀ b ∈ rest.head?, isDigit b = false) :
    number? (utf8 (String.ofList cs) ++ rest) = some (Nat.ofDigitChars 10 cs 0, rest) := by
  have hdigits : ∀ b ∈ cs.map byteOf, isDigit b = true := by
    intro b hb
    obtain ⟨c, hc, rfl⟩ := List.mem_map.1 hb
    exact isDigit_byteOf (h c hc)
  have htake : rest.takeWhile isDigit = [] := by
    cases rest with
    | nil => rfl
    | cons b rest => rw [List.takeWhile_cons, hrest b rfl]; rfl
  have hdrop : rest.dropWhile isDigit = rest := by
    cases rest with
    | nil => rfl
    | cons b rest => rw [List.dropWhile_cons, hrest b rfl]; rfl
  unfold number?
  rw [utf8_digits h, List.takeWhile_append_of_pos hdigits, List.dropWhile_append_of_pos hdigits,
    htake, hdrop, List.append_nil, digitsValue_map h, if_neg]
  simpa using hne

theorem isDigit_toDigits {n : Nat} : ∀ c ∈ Nat.toDigits 10 n, c.isDigit = true :=
  fun _ hc => Nat.isDigit_of_mem_toDigits (by decide) (by decide) hc

theorem number?_toString (n : Nat) {rest : List UInt8}
    (hrest : ∀ b ∈ rest.head?, isDigit b = false) :
    number? (utf8 (toString n) ++ rest) = some (n, rest) := by
  rw [Nat.toString_eq_ofList_toDigits, number?_digits Nat.toDigits_ne_nil isDigit_toDigits hrest,
    Nat.ofDigitChars_ten_toDigits]

end Pdf
end Galley
