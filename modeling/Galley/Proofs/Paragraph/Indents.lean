import Galley.Proofs.Paragraph.Measured
import Galley.Proofs.Paragraph.Pieces

/-
Where the indents of a text come from.

A paragraph starts with an opening tag and with nothing else (`opened_of_parseNext`), and the
attributes of the tag do not change its indent.  So each paragraph of a text is indented by what the
registry has for some tag, measured at the size of the style that the paragraph starts under, or not
at all (`indented_of_reads`).
-/

namespace Galley
namespace Paragraph

open Font Markup Style

variable {α : Type} [Scalar α]

/-- A paragraph is indented as the registry says for a tag, or not at all. -/
def IndentedBy (registry : Registry α) (i : Instruction α) : Prop :=
  ∀ indent, i.kind = .paragraphStart indent → indent = 0 ∨
    ∃ tag style measure, registry.find? tag = some style ∧ style.indent = some measure ∧
      measure.resolve (i.state.indentContext registry) = .ok indent

namespace Parser

variable {p q : Parser α} {i : Instruction α}

theorem indented_opening {tag : String} {registered style : TagStyle α} {options : Attributes}
    {child : StyleState α} {kind : Kind α} {scope : Scope}
    (hfound : p.setup.registry.find? tag = some registered)
    (hindent : style.indent = registered.indent)
    (h : p.openingKind tag style options child = .ok (kind, scope)) :
    IndentedBy p.setup.registry (.ofKind kind child p.setup.fonts) := by
  intro indent hkind
  unfold openingKind at h
  split at h
  · split at h
    · next measure hmeasure =>
      obtain ⟨resolved, hresolved, heq⟩ := exists_of_map_ok h
      cases heq
      cases hkind
      rw [ofKind_state]
      exact Or.inr ⟨tag, registered, measure, hfound, hindent.symm.trans hmeasure, hresolved⟩
    · cases h
      cases hkind
      exact Or.inl rfl
  · split at h
    · cases h
      cases hkind
    · cases h
      cases hkind

theorem indented_openScope {tag : String} {registered style : TagStyle α} {options : Attributes}
    {position : Nat} (hfound : p.setup.registry.find? tag = some registered)
    (hindent : style.indent = registered.indent)
    (h : p.openScope tag style options position = (.ok i, q))
    (hp : ∀ j ∈ p.pushed, IndentedBy p.setup.registry j) :
    IndentedBy p.setup.registry i ∧ ∀ j ∈ q.pushed, IndentedBy p.setup.registry j := by
  unfold openScope at h
  split at h
  · cases h
  · split at h
    · cases h
    · next kind scope hkind =>
      have hopening := indented_opening hfound hindent hkind
      cases h
      unfold enter
      dsimp only
      split
      · -- the line ends first, and the start of the block waits
        refine ⟨?_, List.forall_mem_cons.2 ⟨hopening, hp⟩⟩
        intro indent hbreak
        cases hbreak
      · exact ⟨hopening, hp⟩

theorem indented_openTag {tag : String} {raw : Attributes} {position : Nat}
    (h : p.openTag tag raw position = (.ok i, q))
    (hp : ∀ j ∈ p.pushed, IndentedBy p.setup.registry j) :
    IndentedBy p.setup.registry i ∧ ∀ j ∈ q.pushed, IndentedBy p.setup.registry j := by
  unfold openTag at h
  split at h
  · cases h
  · next style options hresolved =>
    unfold resolveTag at hresolved
    split at hresolved
    · cases hresolved
    · next registered hfound =>
      obtain ⟨changed, hchanged, heq⟩ := exists_of_map_ok hresolved
      cases heq
      have hindent := (TagStyle.flow_withOptions hchanged).2
      have hbreak {kind : Kind α} (hkind : kind = .lineBreak ∨ kind = .pageBreak) :
          IndentedBy p.setup.registry (p.instruction kind) := by
        intro indent heq
        rcases hkind with rfl | rfl
        · cases heq
        · cases heq
      split at h
      · cases h
        exact ⟨hbreak (Or.inl rfl), hp⟩
      · cases h
        exact ⟨hbreak (Or.inr rfl), hp⟩
      · exact indented_openScope hfound hindent h hp
      · exact indented_openScope hfound hindent h hp

theorem not_opened_of_closeTag {tag : String} {position : Nat}
    (h : p.closeTag tag position = (.ok (some i), q)) :
    q.pushed = p.pushed ∧ ∀ indent, i.kind ≠ .paragraphStart indent := by
  unfold closeTag at h
  split at h
  · cases h
  · split at h
    · cases h
    · next opened openTags _ =>
      split at h
      · cases h
        refine ⟨rfl, fun indent heq => ?_⟩
        have hkind := (ofKind_closing tag opened.scope p.state p.setup.fonts).symm.trans heq
        cases hscope : opened.scope with
        | inline | link | block =>
          rw [hscope] at hkind
          cases hkind
      · cases h

/-- A paragraph starts with an opening tag only. -/
theorem opened_of_parseNext (h : p.parseNext = (.ok (some i), q)) :
    (q.pushed = p.pushed ∧ ∀ indent, i.kind ≠ .paragraphStart indent) ∨
      ∃ (s : Parser α) (tag : String) (raw : Attributes) (position : Nat),
        s.setup = p.setup ∧ s.pushed = p.pushed ∧ s.openTag tag raw position = (.ok i, q) := by
  revert h
  fun_induction parseNext p with
  | case1 p run runs hr _ _ _ ih => exact ih
  | case2 p run runs hr j _ =>
    intro h
    rw [Prod.mk.injEq, Except.ok.injEq, Option.some.injEq] at h
    obtain ⟨rfl, rfl⟩ := h
    obtain ⟨⟨content, hkind⟩, -⟩ := runInstruction_text p run
    refine Or.inl ⟨rfl, fun indent heq => ?_⟩
    cases hkind.symm.trans heq
  | case3 => simp
  | case4 p hr scanner hs =>
    intro h
    unfold atEnd at h
    split at h <;> cases h
  | case5 p hr runs scanner hs _ ih => exact ih
  | case6 p hr tag options scanner hs j r hq =>
    intro h
    cases j with
    | error e => cases h
    | ok j =>
      cases h
      exact Or.inr ⟨{ p with scanner, betweenParagraphs := false }, tag, options, _, rfl, rfl, hq⟩
  | case7 p hr tag scanner hs r hc _ ih =>
    rw [closeTag_nothing hc] at ih ⊢
    exact ih
  | case8 p hr tag scanner hs j r hc =>
    intro h
    cases h
    exact Or.inl (not_opened_of_closeTag (p := { p with scanner }) hc)
  | case9 => simp

theorem indented_next (h : p.next = (.ok (some i), q))
    (hp : ∀ j ∈ p.pushed, IndentedBy p.setup.registry j) :
    IndentedBy p.setup.registry i ∧ ∀ j ∈ q.pushed, IndentedBy p.setup.registry j := by
  unfold next at h
  split at h
  · next j rest hpushed =>
    cases h
    rw [hpushed] at hp
    exact List.forall_mem_cons.1 hp
  · split at h
    · next j r hr =>
      cases h
      rw [pushed_noteLine]
      rcases opened_of_parseNext hr with ⟨hsame, hkind⟩ | ⟨s, tag, raw, position, hsetup, hsame, ho⟩
      · rw [hsame]
        exact ⟨fun indent heq => absurd heq (hkind indent), hp⟩
      · rw [← hsetup, ← hsame] at hp
        rw [← hsetup]
        exact indented_openTag ho hp
    · next r hne hr =>
      cases h
      exact absurd rfl (hne i)

end Parser

theorem indented_of_reads {p q : Parser α} {out : List (Handed α)} (h : Reads p out q)
    (hpushed : p.pushed = []) :
    (∀ j ∈ q.pushed, IndentedBy p.setup.registry j) ∧
      ∀ j ∈ out, IndentedBy p.setup.registry j.item := by
  induction h with
  | start =>
    rw [hpushed]
    exact ⟨by simp, by simp⟩
  | @next out q r i h hn ih =>
    obtain ⟨hwaiting, hout⟩ := ih
    have hsetup := (measured_of_reads h hpushed).1
    rw [← hsetup] at hwaiting hout ⊢
    obtain ⟨hi, hnext⟩ := Parser.indented_next hn hwaiting
    refine ⟨hnext, fun j hj => ?_⟩
    rcases List.mem_append.1 hj with hj | hj
    · exact hout j hj
    · rw [List.mem_singleton.1 hj]
      exact hi

end Paragraph
end Galley
