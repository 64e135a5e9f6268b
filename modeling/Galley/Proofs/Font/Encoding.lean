import Mathlib
import Galley.Font.Catalog
import Galley.Proofs.Outcome

/-
Text in the encoding of the standard faces.

Measuring and encoding go through a text separately, each with its own account of the character
before.  They agree: the bytes of the show array stand for the characters of the text, and its
displacements are the kerning that was measured, the other way round (`encode_shows_measured`).
-/

namespace Galley
namespace Font

/-! ## Characters of bytes -/

/-- The character of a byte, for those bytes that have one. -/
def charOf? (byte : UInt8) : Option Char :=
  let n := byte.toNat
  if (0x20 ≤ n ∧ n ≤ 0x7e) ∨ 0xa0 ≤ n then some (Char.ofNat n)
  else (typographicBytes.find? fun entry => entry.2 = n).map fun entry => Char.ofNat entry.1

/-- No byte stands in the table twice, so each leads back to its own character. -/
theorem charOf?_typographic : ∀ entry ∈ typographicBytes,
    charOf? entry.2.toUInt8 = some (Char.ofNat entry.1) := by
  decide

/-- The byte of a character stands for that character. -/
theorem charOf?_of_winAnsi? {c : Char} {byte : UInt8} (h : winAnsi? c = some byte) :
    charOf? byte = some c := by
  unfold winAnsi? at h
  dsimp only at h
  split at h
  · next hrange =>
    cases h
    have hbyte : c.toNat.toUInt8.toNat = c.toNat :=
      UInt8.toNat_ofNat_of_lt' (show c.toNat < 256 by omega)
    unfold charOf?
    dsimp only
    rw [hbyte, if_pos (by omega), Char.ofNat_toNat]
  · obtain ⟨n, hn, rfl⟩ := Option.map_eq_some_iff.1 h
    obtain ⟨front, back, htable, -⟩ := List.lookup_eq_some_iff.1 hn
    have hentry : (c.toNat, n) ∈ typographicBytes := by
      rw [htable]
      simp
    have hchar := charOf?_typographic _ hentry
    rwa [Char.ofNat_toNat] at hchar

/-! ## Show arrays -/

variable {α : Type}

/-- The bytes of a show array, in their order. -/
def bytesIn (items : List (ShowItem α)) : List UInt8 :=
  items.flatMap fun
    | .bytes data => data
    | .adjust _ => []

/-- The displacements of a show array, in their order. -/
def amountsIn (items : List (ShowItem α)) : List α :=
  items.filterMap fun
    | .bytes _ => none
    | .adjust amount => some amount

namespace Catalog

section

variable [Scalar α]

theorem bytesIn_encodeStandard (m : StandardMetrics) (kerning : Bool) (pending : List UInt8)
    (last : Option Char) (text : List Char) :
    bytesIn (encodeStandard m kerning pending last text : List (ShowItem α)) =
      pending ++ text.map shownByte := by
  induction text generalizing pending last with
  | nil =>
    unfold encodeStandard
    by_cases hnone : pending.isEmpty = true
    · rw [if_pos hnone, List.isEmpty_iff.1 hnone]
      rfl
    · rw [if_neg hnone]
      simp [bytesIn]
  | cons ch text ih =>
    rw [encodeStandard]
    by_cases hkern : pairKern m kerning last ch = 0
    · rw [if_pos hkern, ih, List.append_assoc]
      rfl
    · rw [if_neg hkern]
      show pending ++ ([] ++ bytesIn _) = _
      rw [ih]
      rfl

/-- Kerning of the pairs of a text, where there is any. -/
def kernsIn (m : StandardMetrics) (kerning : Bool) : Option Char → List Char → List Int
  | _, [] => []
  | last, ch :: text =>
    let k := pairKern m kerning last ch
    if k = 0 then kernsIn m kerning (some ch) text else k :: kernsIn m kerning (some ch) text

/-- The array is cut at each of these pairs, and displaces against its kerning. -/
theorem amountsIn_encodeStandard (m : StandardMetrics) (kerning : Bool) (pending : List UInt8)
    (last : Option Char) (text : List Char) :
    amountsIn (encodeStandard m kerning pending last text : List (ShowItem α)) =
      (kernsIn m kerning last text).map fun k => Scalar.ofInt (-k) := by
  induction text generalizing pending last with
  | nil =>
    unfold encodeStandard kernsIn
    split
    · rfl
    · rfl
  | cons ch text ih =>
    rw [encodeStandard, kernsIn]
    by_cases hkern : pairKern m kerning last ch = 0
    · rw [if_pos hkern, if_pos hkern, ih]
    · rw [if_neg hkern, if_neg hkern]
      show Scalar.ofInt _ :: amountsIn _ = _
      rw [ih]
      rfl

end

/-- Kerning is all that is measured beyond the glyphs themselves. -/
theorem unitsAfter_eq (m : StandardMetrics) (kerning : Bool) (last : Option Char)
    (text : List Char) :
    m.unitsAfter kerning last text =
      (text.map fun ch => (m.glyphWidth ch : Int)).sum + (kernsIn m kerning last text).sum := by
  induction text generalizing last with
  | nil => rfl
  | cons ch text ih =>
    have hnext : m.unitsAfter kerning last (ch :: text) =
        m.glyphWidth ch + pairKern m kerning last ch + m.unitsAfter kerning (some ch) text := rfl
    rw [hnext, ih, kernsIn, List.map_cons, List.sum_cons]
    by_cases hkern : pairKern m kerning last ch = 0
    · rw [if_pos hkern, hkern]
      omega
    · rw [if_neg hkern, List.sum_cons]
      omega

variable {c : Catalog} {handle : FontHandle} {m : StandardMetrics}

theorem canEncode_of_standard (h : c.measured handle = .standard m) (ch : Char) :
    c.canEncode handle ch = (winAnsi? ch).isSome := by
  unfold canEncode
  rw [h]

/-- Text that has been normalized can be encoded. -/
theorem canEncode_normalize (h : c.measured handle = .standard m) (text : String) :
    ∀ ch ∈ (c.normalize handle text).toList, c.canEncode handle ch = true := by
  unfold normalize
  rw [String.toList_ofList]
  intro ch hch
  obtain ⟨original, -, rfl⟩ := List.mem_map.1 hch
  split
  · next hable => exact hable
  · rw [canEncode_of_standard h]
    decide

theorem mapM_charOf?_shownByte {text : List Char} (h : ∀ ch ∈ text, (winAnsi? ch).isSome = true) :
    (text.map shownByte).mapM charOf? = some text := by
  rw [mapM_eq_some_iff, List.forall₂_map_left_iff, List.forall₂_same]
  intro ch hch
  obtain ⟨byte, hbyte⟩ := Option.isSome_iff_exists.1 (h ch hch)
  unfold shownByte
  rw [hbyte]
  exact charOf?_of_winAnsi? hbyte

/-- In a face with the metrics of a standard face, a text that can be encoded is shown by one array,
the bytes of which stand for its characters in their order.  The displacements of the array are
whole, and the glyphs less the displacements are as wide as the text was measured. -/
theorem encode_shows_measured [Scalar α] (hface : c.measured handle = .standard m) {text : String}
    (htext : ∀ ch ∈ text.toList, c.canEncode handle ch = true) (kerning : Bool) :
    ∃ (items : List (ShowItem α)) (amounts : List Int),
      c.encode handle text kerning = [{ subset := 0, items }] ∧
      (bytesIn items).mapM charOf? = some text.toList ∧
      amountsIn items = amounts.map Scalar.ofInt ∧
      (text.toList.map fun ch => (m.glyphWidth ch : Int)).sum - amounts.sum =
        m.units kerning text.toList ∧
      ∀ size : α, c.textWidth handle text size kerning = scaleUnits
        ((text.toList.map fun ch => (m.glyphWidth ch : Int)).sum - amounts.sum) 1000 size := by
  have hbytes : ∀ ch ∈ text.toList, (winAnsi? ch).isSome = true := by
    intro ch hch
    rw [← canEncode_of_standard hface]
    exact htext ch hch
  have hunits : (text.toList.map fun ch => (m.glyphWidth ch : Int)).sum -
      ((kernsIn m kerning none text.toList).map (-·)).sum = m.units kerning text.toList := by
    unfold StandardMetrics.units
    rw [unitsAfter_eq, ← List.sum_neg, sub_neg_eq_add]
  refine ⟨encodeStandard m kerning [] none text.toList,
    (kernsIn m kerning none text.toList).map (-·), ?_, ?_, ?_, hunits, ?_⟩
  · unfold encode
    rw [hface]
  · rw [bytesIn_encodeStandard, List.nil_append]
    exact mapM_charOf?_shownByte hbytes
  · rw [amountsIn_encodeStandard, List.map_map]
    rfl
  · intro size
    rw [hunits]
    unfold textWidth
    rw [hface]

/-- A pair that is kerned, a character with a byte of the table, and one that has no byte and is
replaced before. -/
theorem encode_shows_measured_kerned :
    standard.measured ⟨0⟩ = .standard StandardFont.helvetica.metrics ∧
      standard.normalize ⟨0⟩ "AVo€中" = "AVo€?" ∧
      (∀ ch ∈ "AVo€?".toList, standard.canEncode ⟨0⟩ ch = true) ∧
      ∃ (items : List (ShowItem Rat)) (amounts : List Int),
        standard.encode ⟨0⟩ "AVo€?" true = [{ subset := 0, items }] ∧
        (bytesIn items).mapM charOf? = some ['A', 'V', 'o', '€', '?'] ∧
        amountsIn items = amounts.map Scalar.ofInt ∧
        ([667, 667, 556, 556, 556] : List Int).sum - amounts.sum = 2932 ∧
        standard.textWidth ⟨0⟩ "AVo€?" 10 true = (2932 / 1000 * 10 : Rat) := by
  have hface : standard.measured ⟨0⟩ = .standard StandardFont.helvetica.metrics := rfl
  have htext : standard.normalize ⟨0⟩ "AVo€中" = "AVo€?" := by decide +kernel
  have hable : ∀ ch ∈ "AVo€?".toList, standard.canEncode ⟨0⟩ ch = true := by
    rw [← htext]
    exact canEncode_normalize hface "AVo€中"
  have hunits : StandardFont.helvetica.metrics.units true "AVo€?".toList = 2932 := by
    decide +kernel
  obtain ⟨items, amounts, hencode, hchars, hamounts, hsum, hwidth⟩ :=
    encode_shows_measured (α := Rat) hface hable true
  refine ⟨hface, htext, hable, items, amounts, hencode, hchars, hamounts, hsum.trans hunits, ?_⟩
  rw [hwidth, hsum, hunits]
  rfl

end Catalog
end Font
end Galley
