import Galley.Proofs.Scalar
import Galley.Paragraph.Line
import Galley.Font.Catalog

/-
Facts about single instructions and their widths.

A parser and its callers make instructions in one way, by measuring a kind of thing under a style,
and may then let a line end after it.  `Made` says so, and gives what breaking relies on: markers
take no room and are not white space.
-/

namespace Galley
namespace Paragraph

variable {α : Type} [Scalar α]

namespace Instruction

/-- Measured by `ofKind`, and perhaps marked as a place where a line may end. -/
def Made (i : Instruction α) : Prop :=
  ∃ kind state fonts, i = ofKind kind state fonts ∨ i = (ofKind kind state fonts).breakable

/-- Serials tell the styles of these apart: where two serials are the same, so are the styles. -/
def ToldApart (items : List (Instruction α)) : Prop :=
  ∀ i ∈ items, ∀ j ∈ items, i.state.serial = j.state.serial → i.state = j.state

/-- Ends the scope of a tag or a link. -/
def isClosing (i : Instruction α) : Bool :=
  match i.kind with
  | .tagClose _ | .linkEnd => true
  | _ => false

/-- Room without text. -/
def isGap (i : Instruction α) : Bool :=
  match i.kind with
  | .strut _ | .paragraphStart _ => true
  | _ => false

/-- The start or the end of a link. -/
def isLink (i : Instruction α) : Bool :=
  match i.kind with
  | .linkStart .. | .linkEnd => true
  | _ => false

/-- A marker that is no part of a link. -/
def isPlain (i : Instruction α) : Bool :=
  match i.kind with
  | .tagOpen _ | .tagClose _ | .lineBreak | .pageBreak | .paragraphEnd => true
  | _ => false

omit [Scalar α] in
theorem isGap_of_isLink {i : Instruction α} (h : i.isLink = true) : i.isGap = false := by
  unfold isLink at h
  unfold isGap
  cases hk : i.kind <;> simp_all

omit [Scalar α] in
theorem isGap_of_isPlain {i : Instruction α} (h : i.isPlain = true) : i.isGap = false := by
  unfold isPlain at h
  unfold isGap
  cases hk : i.kind <;> simp_all

theorem ofKind_marker {kind : Kind α} {state : Style.StyleState α} {fonts : Font.FontService α}
    (h : (ofKind kind state fonts).isMarker = true) :
    (ofKind kind state fonts).width = 0 ∧ (ofKind kind state fonts).discardable = false := by
  cases kind with
  | text content => simp [ofKind, isMarker, Kind.isMarker] at h
  | strut width => simp [ofKind, isMarker, Kind.isMarker] at h
  | paragraphStart indent => simp [ofKind, isMarker, Kind.isMarker] at h
  | _ => exact ⟨rfl, rfl⟩

theorem Made.marker {i : Instruction α} (hi : i.Made) (h : i.isMarker = true) :
    i.width = 0 ∧ i.discardable = false := by
  obtain ⟨kind, state, fonts, rfl | rfl⟩ := hi
  · exact ofKind_marker h
  · have hplain : (ofKind kind state fonts).isMarker = true := h
    exact ofKind_marker hplain

theorem ofKind_discardable {kind : Kind α} {state : Style.StyleState α}
    {fonts : Font.FontService α} (h : (ofKind kind state fonts).discardable = true) :
    (ofKind kind state fonts).breakOpportunity = true := by
  cases kind with
  | text content =>
    obtain ⟨c, hc, hspace⟩ := List.any_eq_true.1 h
    exact List.any_eq_true.2 ⟨c, hc, by simp [isBreakChar, hspace]⟩
  | _ => cases h

/-- A line may end after white space. -/
theorem Made.breakOpportunity {i : Instruction α} (hi : i.Made) (h : i.discardable = true) :
    i.breakOpportunity = true := by
  obtain ⟨kind, state, fonts, rfl | rfl⟩ := hi
  · exact ofKind_discardable h
  · rfl

theorem Made.not_discardable {i : Instruction α} (hi : i.Made) (h : i.breakOpportunity = false) :
    i.discardable = false := by
  rw [Bool.eq_false_iff]
  intro hd
  rw [hi.breakOpportunity hd] at h
  cases h

omit [Scalar α] in
theorem isMarker_of_isForcedBreak {i : Instruction α} (h : i.isForcedBreak = true) :
    i.isMarker = true := by
  unfold isForcedBreak at h
  unfold isMarker
  cases hk : i.kind <;> simp_all [Kind.isForcedBreak, Kind.isMarker]

omit [Scalar α] in
theorem isMarker_of_isClosing {i : Instruction α} (h : i.isClosing = true) :
    i.isMarker = true := by
  unfold isClosing at h
  unfold isMarker
  cases hk : i.kind <;> simp_all [Kind.isMarker]

@[simp] theorem solidWidth_of_discardable {i : Instruction α} (h : i.discardable = true) :
    i.solidWidth = 0 := by
  simp [solidWidth, h]

@[simp] theorem solidWidth_of_not_discardable {i : Instruction α} (h : i.discardable = false) :
    i.solidWidth = i.width := by
  simp [solidWidth, h]

theorem isVisible_iff (i : Instruction α) : i.isVisible = true ↔ 0 < i.solidWidth := by
  simp [isVisible]

section

variable [Scalar.KeepsSign α]

theorem not_isVisible_of_discardable {i : Instruction α} (h : i.discardable = true) :
    i.isVisible = false := by
  rw [Bool.eq_false_iff, ne_eq, isVisible_iff, solidWidth_of_discardable h]
  exact Scalar.KeepsSign.not_zero_lt_zero

theorem not_discardable_of_isVisible {i : Instruction α} (h : i.isVisible = true) :
    i.discardable = false := by
  by_contra hd
  rw [not_isVisible_of_discardable (by simpa using hd)] at h
  cases h

theorem not_isVisible_of_marker {i : Instruction α} (hi : i.Made) (h : i.isMarker = true) :
    i.isVisible = false := by
  obtain ⟨hw, hd⟩ := hi.marker h
  rw [Bool.eq_false_iff, ne_eq, isVisible_iff, solidWidth_of_not_discardable hd, hw]
  exact Scalar.KeepsSign.not_zero_lt_zero

theorem width_pos_of_isVisible {i : Instruction α} (h : i.isVisible = true) : 0 < i.width := by
  have hd := not_discardable_of_isVisible h
  rwa [isVisible_iff, solidWidth_of_not_discardable hd] at h

end

theorem solidWidth_add_looseWidth (x : Rat) (i : Instruction Rat) :
    x + i.solidWidth + i.looseWidth = x + i.width := by
  cases hd : i.discardable <;> simp [solidWidth, looseWidth, hd]

end Instruction

/-! ## Widths of runs of instructions -/

/-- Widths of several instructions, summed from the first on. -/
def totalWidth (items : List (Instruction α)) : α := items.foldl (fun w i => w + i.width) 0

@[simp] theorem totalWidth_nil : totalWidth ([] : List (Instruction α)) = 0 := rfl

theorem totalWidth_concat (items : List (Instruction α)) (i : Instruction α) :
    totalWidth (items ++ [i]) = totalWidth items + i.width := by
  simp [totalWidth]

section

variable {items part : List (Instruction Rat)}

theorem totalWidth_eq_sum (items : List (Instruction Rat)) :
    totalWidth items = (items.map Instruction.width).sum := by
  induction items using List.reverseRecOn with
  | nil => rfl
  | append_singleton items i ih => simp [totalWidth_concat, ih]

theorem totalWidth_append (a b : List (Instruction Rat)) :
    totalWidth (a ++ b) = totalWidth a + totalWidth b := by
  simp [totalWidth_eq_sum]

theorem totalWidth_cons (i : Instruction Rat) (items : List (Instruction Rat)) :
    totalWidth (i :: items) = i.width + totalWidth items := by
  simp [totalWidth_eq_sum]

theorem totalWidth_le_of_sublist (h : part.Sublist items) (hw : ∀ i ∈ items, 0 ≤ i.width) :
    totalWidth part ≤ totalWidth items := by
  rw [totalWidth_eq_sum, totalWidth_eq_sum]
  apply (h.map Instruction.width).sum_le_sum
  intro w hw'
  obtain ⟨i, hi, rfl⟩ := List.mem_map.1 hw'
  exact hw i hi

theorem totalWidth_nonneg (hw : ∀ i ∈ items, 0 ≤ i.width) : 0 ≤ totalWidth items :=
  totalWidth_le_of_sublist (List.nil_sublist items) hw

end

/-- What an instruction shows does not fit behind `filled`. -/
def Overflows (width filled : α) (i : Instruction α) : Prop :=
  0 < i.solidWidth ∧ width + Scalar.epsilon < filled + i.solidWidth

instance (width filled : α) (i : Instruction α) : Decidable (Overflows width filled i) :=
  inferInstanceAs (Decidable (_ ∧ _))

theorem not_overflows_of_not_isVisible {width filled : α} {i : Instruction α}
    (h : i.isVisible = false) : ¬ Overflows width filled i := by
  intro ho
  rw [Bool.eq_false_iff, ne_eq, Instruction.isVisible_iff] at h
  exact h ho.1

theorem overflows_iff (width : Rat) (line : List (Instruction Rat)) (i : Instruction Rat) :
    Overflows width (totalWidth line) i ↔
      i.isVisible = true ∧ width + Scalar.epsilon < totalWidth (line ++ [i]) := by
  unfold Overflows
  rw [← Instruction.isVisible_iff, totalWidth_concat]
  refine and_congr_right fun hi => ?_
  rw [Instruction.solidWidth_of_not_discardable (Instruction.not_discardable_of_isVisible hi)]

theorem width_ofInstructions (items : List (Instruction α)) (hard : Bool) :
    (Line.ofInstructions items hard).width = totalWidth (Line.trim items) := rfl

/-! ## A paragraph to try things on

Courier at ten points: every character is six points wide. -/

namespace Sample

def fonts : Font.FontService Rat := Font.Catalog.standard.service

def state : Style.StyleState Rat :=
  .root fonts { Style.RootStyle.standard with family := "Courier", size := 10 }

/-- A run of text. -/
def run (content : String) : Instruction Rat := .ofText content state fonts

/-- Anything else. -/
def other (kind : Kind Rat) : Instruction Rat := .ofKind kind state fonts

theorem run_made (content : String) : (run content).Made :=
  ⟨.text content, state, fonts, Or.inl rfl⟩

theorem other_made (kind : Kind Rat) : (other kind).Made := ⟨kind, state, fonts, Or.inl rfl⟩

/-- Two words, of twelve and thirty points. -/
def words : List (Instruction Rat) := ["aa", " ", "bbbbb"].map run

theorem words_made : ∀ i ∈ words, i.Made := by
  intro i hi
  obtain ⟨content, _, rfl⟩ := List.mem_map.1 hi
  exact run_made content

theorem words_nonneg : ∀ i ∈ words, 0 ≤ i.width := by decide +kernel

/-- A word with white space and a tag behind it that nothing stands in. -/
def emptyTag : List (Instruction Rat) :=
  [run "aa", run " ", other (.tagOpen "b"), other (.tagClose "b")]

theorem emptyTag_made : ∀ i ∈ emptyTag, i.Made := by
  intro i hi
  simp only [emptyTag, List.mem_cons, List.not_mem_nil, or_false] at hi
  rcases hi with rfl | rfl | rfl | rfl
  · exact run_made "aa"
  · exact run_made " "
  · exact other_made (.tagOpen "b")
  · exact other_made (.tagClose "b")

end Sample

end Paragraph
end Galley
