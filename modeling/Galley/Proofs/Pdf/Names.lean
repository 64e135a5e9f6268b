import Galley.Proofs.Pdf.Words

/-
Names as they are read.

In a name a number sign stands in front of two hexadecimal digits, which spell a byte, and any other
character stands for itself.  So a name spells the bytes of its string (`decodeName?_nameText`), and
no two strings share a name (`nameText_injective`).
-/

namespace Galley
namespace Pdf

/-! ## The reader -/

/-- The bytes that the characters of a name spell. -/
def decodeName? : List Char → Option (List UInt8)
  | [] => some []
  | '#' :: high :: low :: cs => do
    let high ← Text.hexValue? high
    let low ← Text.hexValue? low
    let data ← decodeName? cs
    return UInt8.ofNat (16 * high + low) :: data
  | c :: cs => if c = '#' then none else (decodeName? cs).map (byteOf c :: ·)

/-- Printable characters that are no delimiters, where a number sign comes only in front of two
hexadecimal digits. -/
inductive NameBody : List Char → Prop
  | nil : NameBody []
  | plain {c : Char} {cs : List Char} (hc : plain c = true) (hsign : c ≠ '#') (h : NameBody cs) :
    NameBody (c :: cs)
  | escape {high low : Char} {cs : List Char} (hhigh : (Text.hexValue? high).isSome)
    (hlow : (Text.hexValue? low).isSome) (h : NameBody cs) : NameBody ('#' :: high :: low :: cs)

/-! ## Written names -/

/-- A byte stands for itself, or it is spelled by two digits. -/
inductive SpellsByte (b : UInt8) : List Char → Prop
  | plain {c : Char} (hc : plain c = true) (hsign : c ≠ '#') (hbyte : byteOf c = b) :
    SpellsByte b [c]
  | escape {high low : Char} (i j : Nat) (hhigh : Text.hexValue? high = some i)
    (hlow : Text.hexValue? low = some j) (hbyte : UInt8.ofNat (16 * i + j) = b) :
    SpellsByte b ['#', high, low]

theorem hexValue?_upperHexDigit : ∀ n < 16, Text.hexValue? (Text.upperHexDigit n) = some n := by
  decide

theorem spellsByte_nameByte (b : UInt8) : SpellsByte b (nameByte b) := by
  unfold nameByte
  split
  · next hplain =>
    have hchar : ∀ b : UInt8, (0x21 ≤ b ∧ b ≤ 0x7e ∧ b ∉ nameDelimiters) →
        plain (asciiChar b) = true ∧ asciiChar b ≠ '#' ∧ byteOf (asciiChar b) = b :=
      forall_byte (by decide +kernel)
    obtain ⟨hc, hsign, hbyte⟩ := hchar b hplain
    exact .plain hc hsign hbyte
  · have hb := b.toNat_lt
    refine .escape (b.toNat / 16 % 16) (b.toNat % 16)
      (hexValue?_upperHexDigit _ (Nat.mod_lt _ (by decide)))
      (hexValue?_upperHexDigit _ (Nat.mod_lt _ (by decide))) ?_
    rw [show 16 * (b.toNat / 16 % 16) + b.toNat % 16 = b.toNat by omega, UInt8.ofNat_toNat]

theorem SpellsByte.decodeName? {b : UInt8} {cs : List Char} (h : SpellsByte b cs)
    (rest : List Char) : decodeName? (cs ++ rest) = (decodeName? rest).map (b :: ·) := by
  cases h with
  | plain hc hsign hbyte =>
    rw [List.singleton_append, Pdf.decodeName?, if_neg hsign, hbyte]
    intro high low cs hcs
    exact absurd hcs hsign
  | escape i j hhigh hlow hbyte =>
    rw [List.cons_append, List.cons_append, List.singleton_append, Pdf.decodeName?, hhigh, hlow,
      ← hbyte]
    cases Pdf.decodeName? rest with
    | none => rfl
    | some data => rfl

theorem SpellsByte.nameBody {b : UInt8} {cs rest : List Char} (h : SpellsByte b cs)
    (hrest : NameBody rest) : NameBody (cs ++ rest) := by
  cases h with
  | plain hc hsign hbyte => exact .plain hc hsign hrest
  | escape i j hhigh hlow hbyte => exact .escape (by simp [hhigh]) (by simp [hlow]) hrest

theorem decodeName?_nameText (s : String) : decodeName? (nameText s).toList = some (utf8 s) := by
  rw [nameText, String.toList_ofList]
  induction utf8 s with
  | nil => rfl
  | cons b data ih => rw [List.flatMap_cons, (spellsByte_nameByte b).decodeName?, ih, Option.map_some]

theorem nameBody_nameText (s : String) : NameBody (nameText s).toList := by
  rw [nameText, String.toList_ofList]
  induction utf8 s with
  | nil => exact .nil
  | cons b data ih => exact (spellsByte_nameByte b).nameBody ih

/-- Different strings have different names. -/
theorem nameText_injective : Function.Injective nameText := by
  intro s t h
  have hread := decodeName?_nameText s
  rw [h, decodeName?_nameText t] at hread
  exact (utf8_injective (Option.some.inj hread)).symm

end Pdf
end Galley
