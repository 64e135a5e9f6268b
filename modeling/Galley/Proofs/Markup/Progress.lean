import Mathlib
import Galley.Proofs.Markup.Acceptance

/-
A scanner only ever moves on.

Every call reads on in the text (`reads_next`), so all positions are between two characters of it.
A call that neither pays an owed end of a tag nor finds the end of the text uses up something, which
is then at least one character: an entity that means nothing is left unread, but the ampersand
before it is not.
-/

namespace Galley
namespace Markup

theorem byteLength_eq (cs : List Char) : byteLength cs = String.utf8Len cs := by
  induction cs with
  | nil => rfl
  | cons c cs ih =>
    rw [byteLength, ih, String.utf8Len_cons, Nat.add_comm]

theorem byteLength_toList (text : String) : byteLength text.toList = text.utf8ByteSize := by
  rw [byteLength_eq, ← String.utf8ByteSize_ofList, String.ofList_toList]

theorem length_le_byteLength (cs : List Char) : cs.length ≤ byteLength cs := by
  induction cs with
  | nil => exact Nat.le_refl 0
  | cons c cs ih =>
    have hc := c.utf8Size_pos
    rw [List.length_cons, byteLength]
    omega

namespace Scanner

/-! ## One call -/

theorem Reads.position_le {s t : Scanner} {n : Nat} (h : Reads n s t) :
    s.position ≤ t.position := by
  obtain ⟨read, -, ht, -⟩ := h
  omega

/-- Where no end of a tag is owed, what is used up is characters. -/
theorem Reads.position_lt {s t : Scanner} {n : Nat} (h : Reads (n + 1) s t)
    (hp : s.pending = none) : s.position < t.position := by
  obtain ⟨read, hs, ht, hn⟩ := h
  have hbytes := length_le_byteLength read
  have hrest := t.length_le_weight
  have hweight : s.weight = 2 * (read ++ t.rest).length := by simp [weight, hp, hs]
  rw [hweight, List.length_append] at hn
  omega

theorem cost_eq {found : Except Error (Option Token)} (h : found ≠ .ok none) :
    ∃ n, cost found = n + 1 := by
  cases found with
  | error e => exact ⟨0, rfl⟩
  | ok found =>
    cases found with
    | none => exact absurd rfl h
    | some token => exact ⟨token.size, rfl⟩

/-- Where the end is found, the scanner is left as it is. -/
theorem next_eq_self {s : Scanner} (h : s.next.1 = .ok none) : s.next.2 = s := by
  obtain ⟨hp, hs⟩ := nil_of_next (Prod.ext h rfl)
  rw [next_of_nil hp hs]

/-- A call that does not find the end leaves less to be handed out, also if it fails. -/
theorem weight_next_lt {s : Scanner} (h : s.next.1 ≠ .ok none) : s.next.2.weight < s.weight := by
  obtain ⟨n, hn⟩ := cost_eq h
  have hle := (reads_next s).weight_le
  omega

/-! ## Any number of calls -/

/-- The scanner of a text after some calls, whatever they returned. -/
def after (text : String) (calls : Nat) : Scanner :=
  (fun s => s.next.2)^[calls] (ofText text)

theorem after_succ (text : String) (n : Nat) : after text (n + 1) = (after text n).next.2 :=
  Function.iterate_succ_apply' _ n _

theorem reads_after (text : String) (n : Nat) : Reads 0 (ofText text) (after text n) := by
  induction n with
  | zero => exact .refl _
  | succ n ih =>
    rw [after_succ]
    exact (ih.trans (reads_next _)).on

/-- A scanner that reads a text stands between two of its characters. -/
theorem Reads.isValid {text : String} {s : Scanner} {n : Nat} (h : Reads n (ofText text) s) :
    String.Pos.Raw.IsValid text ⟨s.position⟩ := by
  obtain ⟨read, htext, hposition, -⟩ := h
  have hread : (String.ofList read).utf8ByteSize = byteLength read := by
    rw [String.utf8ByteSize_ofList, byteLength_eq]
  refine String.Pos.Raw.isValid_iff_exists_append.2
    ⟨String.ofList read, String.ofList s.rest, ?_, ?_⟩
  · rw [← String.ofList_append, ← htext]
    exact String.ofList_toList.symm
  · show String.Pos.Raw.mk s.position = ⟨(String.ofList read).utf8ByteSize⟩
    rw [hposition, hread]
    exact congrArg String.Pos.Raw.mk (Nat.zero_add _)

theorem weight_after {text : String} {n : Nat}
    (h : ∀ m < n, (after text m).next.1 ≠ .ok none) :
    (after text n).weight + n ≤ 2 * text.length := by
  induction n with
  | zero => exact Nat.le_of_eq (by simp [after, ofText, weight, String.length_toList])
  | succ n ih =>
    have hbefore := ih fun m hm => h m (Nat.lt_succ_of_lt hm)
    have hstep := weight_next_lt (h n (Nat.lt_succ_self n))
    rw [after_succ]
    omega

/-- However a text is written, its end is found. -/
theorem exists_end (text : String) : ∃ n ≤ 2 * text.length, (after text n).next.1 = .ok none := by
  by_contra! hnone
  have hweight : (after text (2 * text.length + 1)).weight + (2 * text.length + 1) ≤
      2 * text.length :=
    weight_after fun m hm => hnone m (Nat.lt_succ_iff.1 hm)
  omega

theorem after_of_end {text : String} {n m : Nat} (h : (after text n).next.1 = .ok none)
    (hm : n ≤ m) : after text m = after text n := by
  induction m, hm using Nat.le_induction with
  | base => rfl
  | succ m hm ih => rw [after_succ, ih, next_eq_self h]

/-- At the end of the text nothing is left before it. -/
theorem position_of_end {text : String} {n : Nat} (h : (after text n).next.1 = .ok none) :
    (after text n).position = text.utf8ByteSize := by
  obtain ⟨-, hnil⟩ := nil_of_next (Prod.ext h rfl)
  obtain ⟨read, htext, hposition, -⟩ := reads_after text n
  rw [hnil, List.append_nil] at htext
  rw [hposition, ← byteLength_toList, ← htext]
  exact Nat.zero_add _

/-- Calls in a row, whatever they return: the position is always between two characters of the
text and never goes back, and every call moves it on that neither pays an owed end of a tag nor
finds the end of the text.  The end is found after at most two calls for each character, and from
then on by every call in the same place. -/
theorem scanning_progresses (text : String) :
    (∀ n, String.Pos.Raw.IsValid text ⟨(after text n).position⟩) ∧
    (∀ n, (after text n).position ≤ (after text (n + 1)).position) ∧
    (∀ n, (after text n).pending = none → (after text n).next.1 ≠ .ok none →
      (after text n).position < (after text (n + 1)).position) ∧
    (∃ n ≤ 2 * text.length, (after text n).next.1 = .ok none ∧
      (after text n).position = text.utf8ByteSize) ∧
    ∀ n, (after text n).next.1 = .ok none → ∀ m ≥ n,
      (after text m).next.1 = .ok none ∧ (after text m).position = (after text n).position := by
  refine ⟨fun n => (reads_after text n).isValid, fun n => ?_, fun n hp hnext => ?_, ?_, ?_⟩
  · rw [after_succ]
    exact (reads_next _).position_le
  · obtain ⟨cost, hcost⟩ := cost_eq hnext
    have hread := reads_next (after text n)
    rw [hcost] at hread
    rw [after_succ]
    exact hread.position_lt hp
  · obtain ⟨n, hn, hend⟩ := exists_end text
    exact ⟨n, hn, hend, position_of_end hend⟩
  · intro n hend m hm
    rw [after_of_end hend hm]
    exact ⟨hend, rfl⟩

/-- The third call fails at an entity that means nothing and goes back to its name, which is still
behind the ampersand. -/
theorem scanning_progresses_entity :
    (after "<i/>&q;" 2).pending = none ∧ (after "<i/>&q;" 2).next.1 ≠ .ok none ∧
      (after "<i/>&q;" 2).position < (after "<i/>&q;" 3).position := by
  have hp : (after "<i/>&q;" 2).pending = none := by cbv
  have hnext : (after "<i/>&q;" 2).next.1 ≠ .ok none := by
    have hfails : (after "<i/>&q;" 2).next.1.toOption = none := by cbv
    intro h
    rw [h] at hfails
    cases hfails
  exact ⟨hp, hnext, (scanning_progresses "<i/>&q;").2.2.1 2 hp hnext⟩

end Scanner
end Markup
end Galley
