import Galley.Proofs.Decimal.Rounding
import Galley.Proofs.Outcome
import Galley.Proofs.Pdf.References
import Galley.Proofs.Pdf.Terms
import Galley.Pdf.TextObject

/-
The operator that shows text, as it is read.

One string is shown by itself and anything else as an array.  A reader tells the two apart by the
word at the end, and finds the strings and the displacements that were to be shown, each of these
to three decimals (`shown_reads_back`).
-/

namespace Galley
namespace Pdf

open Font

/-! ## The reader -/

def unsigned : List Char → List Char
  | [] => []
  | c :: cs => if c = '-' ∨ c = '+' then cs else c :: cs

/-- Digits with at most one point among them, and a sign before them or none. -/
def isNumeral (cs : List Char) : Bool :=
  (unsigned cs).any Char.isDigit && (unsigned cs).all (fun c => c.isDigit || c == '.') &&
    (unsigned cs).count '.' ≤ 1

def numeral? (cs : List Char) : Option Rat :=
  if isNumeral cs then some (Decimal.valueOf cs) else none

namespace TextOp

def shownItem? : Term → Option (ShowItem Rat)
  | .string data => some (.bytes data)
  | .word cs => (numeral? cs).map .adjust
  | _ => none

/-- What the operator of a text says to show. -/
def shown? (cs : List Char) : Option (List (ShowItem Rat)) :=
  match readTerms? cs with
  | some [.string data, .word ['T', 'j']] => some [.bytes data]
  | some [.array items, .word ['T', 'J']] => items.mapM shownItem?
  | _ => none

end TextOp

/-! ## Numbers -/

theorem unsigned_placed (places n : Nat) :
    unsigned (Decimal.placed places n) = Decimal.placed places n := by
  obtain ⟨c, cs, hplaced, hc⟩ := Decimal.exists_digit_placed places n
  rw [hplaced, unsigned, if_neg]
  rintro (rfl | rfl)
  · exact absurd hc (by decide)
  · exact absurd hc (by decide)

theorem isNumeral_of_placed {cs : List Char} {places n : Nat}
    (h : unsigned cs = Decimal.placed places n) : isNumeral cs = true := by
  obtain ⟨c, rest, hplaced, hc⟩ := Decimal.exists_digit_placed places n
  have hdigits (k : Nat) : ∀ c ∈ Nat.toDigits 10 k, c.isDigit = true := isDigit_toDigits
  have hpadded (k : Nat) : ∀ c ∈ Decimal.paddedDigits places k, c.isDigit = true :=
    Document.isDigit_zeroPadded
  have hnone {cs : List Char} (hcs : ∀ c ∈ cs, c.isDigit = true) : cs.count '.' = 0 :=
    List.count_eq_zero.2 fun hmem => absurd (hcs '.' hmem) (by decide)
  have hany : (Decimal.placed places n).any Char.isDigit = true := by
    rw [hplaced, List.any_cons, hc, Bool.true_or]
  have hrest : (Decimal.placed places n).all (fun c => c.isDigit || c == '.') = true ∧
      (Decimal.placed places n).count '.' ≤ 1 := by
    have hall {cs : List Char} (hcs : ∀ c ∈ cs, c.isDigit = true) :
        cs.all (fun c => c.isDigit || c == '.') = true :=
      List.all_eq_true.2 fun c hc => by simp [hcs c hc]
    unfold Decimal.placed
    dsimp only
    split
    · exact ⟨hall (hdigits _), by rw [hnone (hdigits _)]; omega⟩
    · rw [List.all_append, List.all_cons, hall (hdigits _), hall (hpadded _), List.count_append,
        List.count_cons_self, hnone (hdigits _), hnone (hpadded _)]
      exact ⟨rfl, by omega⟩
  unfold isNumeral
  rw [h, hany, hrest.1]
  simpa using hrest.2

theorem isNumeral_fixedQuotient (places : Nat) (negative : Bool) (num den : Nat) :
    isNumeral (Decimal.fixedQuotient places negative num den).toList = true := by
  unfold Decimal.fixedQuotient
  dsimp only
  rw [String.toList_ofList]
  cases negative with
  | false => exact isNumeral_of_placed (unsigned_placed _ _)
  | true => exact isNumeral_of_placed rfl

/-- A finite double is written as a number, rounded to its places. -/
theorem numeral?_fixedFloat (places : Nat) {x : Float} {q : Rat}
    (h : Decimal.exactValue? x = some q) :
    numeral? (Decimal.fixedFloat places x).toList = some (Decimal.rounded places q) := by
  have hnumeral : isNumeral (Decimal.fixedFloat places x).toList = true := by
    unfold Decimal.exactValue? at h
    unfold Decimal.fixedFloat
    split at h
    · next negative m e hbinary =>
      rw [hbinary]
      exact isNumeral_fixedQuotient ..
    · cases h
  rw [numeral?, if_pos hnumeral, Decimal.valueOf_fixedFloat places h]

/-! ## Operators -/

namespace TextOp

/-- An item in exact numbers, if its number is finite. -/
def exactItem? : ShowItem Float → Option (ShowItem Rat)
  | .bytes data => some (.bytes data)
  | .adjust amount => (Decimal.exactValue? amount).map .adjust

/-- An item as it is written. -/
def roundedItem : ShowItem Rat → ShowItem Rat
  | .bytes data => .bytes data
  | .adjust amount => .adjust (Decimal.rounded 3 amount)

/-- What is read of an item that is written. -/
def itemTerm : ShowItem Float → Term
  | .bytes data => .string data
  | .adjust amount => .word (Decimal.fixedFloat 3 amount).toList

theorem reads_writeItem (item : ShowItem Float) :
    Reads (writeItem item).toList (itemTerm item) := by
  cases item with
  | bytes data =>
    have htext : (writeItem (α := Float) (.bytes data)).toList =
        '(' :: ((escapeBytes data).toList ++ [')']) := by
      rw [writeItem, String.toList_append, String.toList_append]
      rfl
    rw [htext]
    exact Reads.string data
  | adjust amount => exact Reads.word (plainWord_fixedFloat 3 amount)

theorem shownItem?_itemTerm {item : ShowItem Float} {exact : ShowItem Rat}
    (h : exactItem? item = some exact) :
    shownItem? (itemTerm item) = some (roundedItem exact) := by
  cases item with
  | bytes data =>
    cases h
    rfl
  | adjust amount =>
    obtain ⟨q, hq, rfl⟩ := Option.map_eq_some_iff.1 h
    rw [itemTerm, shownItem?, numeral?_fixedFloat 3 hq]
    rfl

theorem mapM_shownItem? {items : List (ShowItem Float)} {exact : List (ShowItem Rat)}
    (h : items.mapM exactItem? = some exact) :
    (items.map itemTerm).mapM shownItem? = some (exact.map roundedItem) := by
  rw [mapM_eq_some_iff, List.forall₂_map_left_iff, List.forall₂_map_right_iff]
  exact (mapM_eq_some_iff.1 h).imp fun _ _ => shownItem?_itemTerm

/-- An operator is a line by itself, behind its operand. -/
theorem readTerms?_line {operand operator : List Char} {t : Term} (h : Reads operand t)
    (hoperator : PlainWord operator) :
    readTerms? (operand ++ [' '] ++ (operator ++ ['\n'])) = some [t, .word operator] :=
  ((h.blank (c := ' ') rfl).append ((Reads.word hoperator).blank (c := '\n') rfl)).readTerms?

theorem readTerms?_array (items : List (ShowItem Float)) :
    readTerms? ("[" ++ String.intercalate " " (items.map writeItem) ++ "] TJ\n").toList =
      some [.array (items.map itemTerm), .word ['T', 'J']] := by
  have htext : ("[" ++ String.intercalate " " (items.map writeItem) ++ "] TJ\n").toList =
      ('[' :: ([' '].intercalate (items.map fun item => (writeItem item).toList) ++ [']'])) ++
        [' '] ++ (['T', 'J'] ++ ['\n']) := by
    rw [String.toList_append, String.toList_append, String.toList_intercalate, List.map_map]
    simp [Function.comp_def]
  rw [htext]
  exact readTerms?_line (Reads.array fun item _ => reads_writeItem item) (by decide)

theorem readTerms?_string (data : List UInt8) :
    readTerms? ("(" ++ escapeBytes data ++ ") Tj\n").toList =
      some [.string data, .word ['T', 'j']] := by
  have htext : ("(" ++ escapeBytes data ++ ") Tj\n").toList =
      ('(' :: ((escapeBytes data).toList ++ [')'])) ++ [' '] ++ (['T', 'j'] ++ ['\n']) := by
    rw [String.toList_append, String.toList_append]
    simp
  rw [htext]
  exact readTerms?_line (Reads.string data) (by decide)

/-- Escaped data is printable, and reads back up to the parenthesis that ends it, whatever follows.
Items to show read back from their operator, if all displacements among them are finite. -/
theorem shown_reads_back :
    (∀ data : List UInt8,
      (∀ c ∈ (escapeBytes data).toList, 0x20 ≤ c.toNat ∧ c.toNat ≤ 0x7e) ∧
        ∀ rest, Literal.read? Literal.start ((escapeBytes data).toList ++ ')' :: rest) =
          some (data, rest)) ∧
      ∀ (items : List (ShowItem Float)) (exact : List (ShowItem Rat)), items ≠ [] →
        items.mapM exactItem? = some exact →
          shown? (write (.glyphs items)).toList = some (exact.map roundedItem) := by
  constructor
  · intro data
    refine ⟨Literal.printable_escapeBytes data, fun rest => ?_⟩
    rw [escapeBytes, String.toList_ofList]
    exact Literal.read?_escapeBytes data rest
  · intro items exact hne hexact
    by_cases hone : ∃ data, items = [.bytes data]
    · obtain ⟨data, rfl⟩ := hone
      cases hexact
      rw [shown?, write, readTerms?_string]
      rfl
    · rw [shown?, write, readTerms?_array]
      · exact mapM_shownItem? hexact
      · exact fun h => hne h
      · exact fun data h => hone ⟨data, h⟩

namespace Sample

/-- A byte that takes three digits in front of one that is a digit, and a displacement halfway
between two decimals. -/
def items : List (ShowItem Float) :=
  [.bytes [0x28, 0x01, 0x37], .adjust 80, .adjust (-0.0625), .bytes [0x5c]]

end Sample

theorem shown_reads_back_tie :
    Sample.items ≠ [] ∧
      Sample.items.mapM exactItem? =
        some [.bytes [0x28, 0x01, 0x37], .adjust 80, .adjust (-1 / 16), .bytes [0x5c]] ∧
      shown? (write (.glyphs Sample.items)).toList =
        some [.bytes [0x28, 0x01, 0x37], .adjust 80, .adjust (-62 / 1000), .bytes [0x5c]] := by
  have hne : Sample.items ≠ [] := List.cons_ne_nil _ _
  have hexact : Sample.items.mapM exactItem? =
      some [.bytes [0x28, 0x01, 0x37], .adjust 80, .adjust (-1 / 16), .bytes [0x5c]] := by
    decide +kernel
  have hrounded : ([.bytes [0x28, 0x01, 0x37], .adjust 80, .adjust (-1 / 16),
      .bytes [0x5c]] : List (ShowItem Rat)).map roundedItem =
        [.bytes [0x28, 0x01, 0x37], .adjust 80, .adjust (-62 / 1000), .bytes [0x5c]] := by
    decide +kernel
  refine ⟨hne, hexact, ?_⟩
  rw [shown_reads_back.2 Sample.items _ hne hexact, hrounded]

end TextOp
end Pdf
end Galley
