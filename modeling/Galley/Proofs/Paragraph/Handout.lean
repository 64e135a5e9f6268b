import Galley.Proofs.Outcome
import Galley.Proofs.Paragraph.Instruction
import Galley.Paragraph.Parser

/-
What the parser hands out, one instruction at a time.

Most of what reading on does is to move through the text.  `Standing` is what is left of a parser
when its place in the text is forgotten: the style in force, the open tags, the instructions that
wait to come out again, and whether the line is open.  `Handout` says everything that one call can
hand out and what the parser stands at afterwards, and `handout_of_next` is the one place where the
parser is taken apart.  Facts about the stream are proved of `Handout` and carried along `Reads`,
the runs of calls.
-/

namespace Galley
namespace Paragraph

open Font Markup Style

variable {α : Type}

structure Standing (α : Type) where
  state : StyleState α
  openTags : List (OpenTag α)
  pushed : List (Instruction α)
  lineOpen : Bool
  nextSerial : Nat

namespace Standing

/-- Goes into the scope of a tag. -/
def enter (s : Standing α) (opened : OpenTag α) (child : StyleState α) : Standing α :=
  { s with
    state := child
    openTags := opened :: s.openTags
    nextSerial := s.nextSerial + 1 }

/-- Goes back to the style around the innermost tag. -/
def leave (s : Standing α) (opened : OpenTag α) (openTags : List (OpenTag α)) : Standing α :=
  { s with state := opened.enclosing, openTags }

variable [Scalar α]

/-- Takes note of what a freshly read instruction does to the line. -/
def note (s : Standing α) (i : Instruction α) : Standing α :=
  if i.isForcedBreak then { s with lineOpen := false }
  else if i.isVisible then { s with lineOpen := true }
  else s

@[simp] theorem note_state (s : Standing α) (i : Instruction α) : (s.note i).state = s.state := by
  unfold note
  split <;> [rfl; split <;> rfl]

@[simp] theorem note_openTags (s : Standing α) (i : Instruction α) :
    (s.note i).openTags = s.openTags := by
  unfold note
  split <;> [rfl; split <;> rfl]

@[simp] theorem note_pushed (s : Standing α) (i : Instruction α) :
    (s.note i).pushed = s.pushed := by
  unfold note
  split <;> [rfl; split <;> rfl]

@[simp] theorem note_nextSerial (s : Standing α) (i : Instruction α) :
    (s.note i).nextSerial = s.nextSerial := by
  unfold note
  split <;> [rfl; split <;> rfl]

theorem note_lineOpen (s : Standing α) (i : Instruction α) :
    (s.note i).lineOpen = (!i.isForcedBreak && (i.isVisible || s.lineOpen)) := by
  unfold note
  cases i.isForcedBreak with
  | true => rfl
  | false => cases i.isVisible <;> rfl

end Standing

/-- What the start of a scope is read as. -/
inductive OpensAs (tag : String) : Kind α → Scope → Prop where
  | inline : OpensAs tag (.tagOpen tag) .inline
  | link (anchor target : Option String) : OpensAs tag (.linkStart anchor target) .link
  | block (indent : α) : OpensAs tag (.paragraphStart indent) .block

variable [Scalar α]

/-- `Handout setup s i t`: a parser that stands at `s` may hand out `i` and stand at `t` then. -/
inductive Handout (setup : Setup α) (s : Standing α) : Instruction α → Standing α → Prop where
  | waiting {i : Instruction α} {rest : List (Instruction α)} (hp : s.pushed = i :: rest) :
      Handout setup s i { s with pushed := rest }
  | text {i : Instruction α} {content : String} (hp : s.pushed = [])
      (hk : i.kind = .text content) (hs : i.state = s.state) : Handout setup s i (s.note i)
  | void {kind : Kind α} (hp : s.pushed = []) (hk : kind = .lineBreak ∨ kind = .pageBreak) :
      Handout setup s (.ofKind kind s.state setup.fonts)
        (s.note (.ofKind kind s.state setup.fonts))
  | opening {tag : String} {kind : Kind α} {scope : Scope} {position : Nat} {style : TagStyle α}
      {child : StyleState α} (hp : s.pushed = []) (hk : OpensAs tag kind scope)
      (hd : s.state.derive s.nextSerial style setup.fonts setup.registry = .ok child)
      (hl : scope = .block → s.lineOpen = false) :
      Handout setup s (.ofKind kind child setup.fonts)
        ((s.enter { tag, scope, enclosing := s.state, position } child).note
          (.ofKind kind child setup.fonts))
  /-- A block inside a line: a break comes out first, and the start of the block waits. -/
  | openingInLine {tag : String} {kind : Kind α} {position : Nat} {style : TagStyle α}
      {child : StyleState α} (hp : s.pushed = []) (hk : OpensAs tag kind .block)
      (hd : s.state.derive s.nextSerial style setup.fonts setup.registry = .ok child)
      (hl : s.lineOpen = true) :
      Handout setup s (.ofKind .lineBreak s.state setup.fonts)
        { s.enter { tag, scope := .block, enclosing := s.state, position } child with
          pushed := [.ofKind kind child setup.fonts]
          lineOpen := false }
  | closing {opened : OpenTag α} {openTags : List (OpenTag α)} (hp : s.pushed = [])
      (ho : s.openTags = opened :: openTags) :
      Handout setup s (.ofKind (Parser.closingKind opened.tag opened.scope) s.state setup.fonts)
        ((s.leave opened openTags).note
          (.ofKind (Parser.closingKind opened.tag opened.scope) s.state setup.fonts))

namespace Parser

omit [Scalar α] in
/-- A parser without its place in the text. -/
def standing (p : Parser α) : Standing α :=
  { state := p.state
    openTags := p.openTags
    pushed := p.pushed
    lineOpen := p.lineOpen
    nextSerial := p.nextSerial }

theorem standing_noteLine (p : Parser α) (i : Instruction α) :
    (p.noteLine i).standing = p.standing.note i := by
  unfold noteLine Standing.note
  split <;> [rfl; split <;> rfl]

theorem setup_noteLine (p : Parser α) (i : Instruction α) : (p.noteLine i).setup = p.setup := by
  unfold noteLine
  split <;> [rfl; split <;> rfl]

/-! ## Taking one call apart -/

theorem runInstruction_text (p : Parser α) (run : String) :
    (∃ content, (p.runInstruction run).kind = .text content) ∧
      (p.runInstruction run).state = p.state := by
  unfold runInstruction
  dsimp only
  split
  · exact ⟨⟨_, rfl⟩, rfl⟩
  · exact ⟨⟨_, rfl⟩, rfl⟩

theorem openingKind_opensAs {p : Parser α} {tag : String} {style : TagStyle α}
    {options : Attributes} {child : StyleState α} {kind : Kind α} {scope : Scope}
    (h : p.openingKind tag style options child = .ok (kind, scope)) : OpensAs tag kind scope := by
  unfold openingKind at h
  split at h
  · split at h
    · obtain ⟨indent, -, heq⟩ := exists_of_map_ok h
      cases heq
      exact .block indent
    · cases h
      exact .block 0
  · split at h
    · cases h
      exact .link _ _
    · cases h
      exact .inline

theorem handout_of_openScope {p q : Parser α} {tag : String} {style : TagStyle α}
    {options : Attributes} {position : Nat} {i : Instruction α} (hp : p.pushed = [])
    (h : p.openScope tag style options position = (.ok i, q)) :
    q.setup = p.setup ∧ Handout p.setup p.standing i (q.noteLine i).standing := by
  unfold openScope at h
  split at h
  · cases h
  · next child hd =>
    split at h
    · cases h
    · next kind scope hk =>
      have hopens := openingKind_opensAs hk
      unfold enter at h
      by_cases hline : (scope = .block && p.lineOpen) = true
      · rw [if_pos hline] at h
        cases h
        rw [Bool.and_eq_true, decide_eq_true_eq] at hline
        obtain ⟨rfl, hopen⟩ := hline
        have hout : Handout p.setup p.standing (.ofKind .lineBreak p.state p.setup.fonts)
            { p.standing.enter { tag, scope := .block, enclosing := p.state, position } child with
              pushed := [.ofKind kind child p.setup.fonts]
              lineOpen := false } := .openingInLine hp hopens hd hopen
        -- what waits is put in front of nothing
        rw [← hp] at hout
        rw [standing_noteLine]
        exact ⟨rfl, hout⟩
      · rw [if_neg hline] at h
        cases h
        rw [standing_noteLine]
        refine ⟨rfl, .opening (s := p.standing) hp hopens hd ?_⟩
        rintro rfl
        show p.lineOpen = false
        simpa using hline

theorem handout_of_openTag {p q : Parser α} {tag : String} {raw : Attributes} {position : Nat}
    {i : Instruction α} (hp : p.pushed = []) (h : p.openTag tag raw position = (.ok i, q)) :
    q.setup = p.setup ∧ Handout p.setup p.standing i (q.noteLine i).standing := by
  unfold openTag at h
  split at h
  · cases h
  · split at h
    · cases h
      rw [standing_noteLine]
      exact ⟨rfl, .void hp (Or.inl rfl)⟩
    · cases h
      rw [standing_noteLine]
      exact ⟨rfl, .void hp (Or.inr rfl)⟩
    · exact handout_of_openScope hp h
    · exact handout_of_openScope hp h

theorem handout_of_closeTag {p q : Parser α} {tag : String} {position : Nat} {i : Instruction α}
    (hp : p.pushed = []) (h : p.closeTag tag position = (.ok (some i), q)) :
    q.setup = p.setup ∧ Handout p.setup p.standing i (q.noteLine i).standing := by
  unfold closeTag at h
  split at h
  · cases h
  · split at h
    · cases h
    · next opened openTags ho =>
      split at h
      · next htag =>
        cases h
        rw [standing_noteLine, ← htag]
        exact ⟨rfl, .closing (s := p.standing) hp ho⟩
      · cases h

theorem closeTag_nothing {p q : Parser α} {tag : String} {position : Nat}
    (h : p.closeTag tag position = (.ok none, q)) : q = p := by
  unfold closeTag at h
  split at h
  · cases h
    rfl
  · split at h
    · cases h
    · split at h
      · cases h
      · cases h

theorem handout_of_parseNext {p q : Parser α} {i : Instruction α} (hp : p.pushed = [])
    (h : p.parseNext = (.ok (some i), q)) :
    q.setup = p.setup ∧ Handout p.setup p.standing i (q.noteLine i).standing := by
  revert hp h
  fun_induction parseNext p with
  | case1 p run runs hr _ _ _ ih => exact ih
  | case2 p run runs hr j _ =>
    intro hp h
    rw [Prod.mk.injEq, Except.ok.injEq, Option.some.injEq] at h
    obtain ⟨rfl, rfl⟩ := h
    rw [standing_noteLine]
    obtain ⟨⟨content, hk⟩, hs⟩ := runInstruction_text p run
    exact ⟨rfl, .text (s := p.standing) hp hk hs⟩
  | case3 => simp
  | case4 p hr scanner hs =>
    intro hp h
    unfold atEnd at h
    split at h <;> cases h
  | case5 p hr runs scanner hs _ ih => exact ih
  | case6 p hr tag options scanner hs j r hq =>
    intro hp h
    cases j with
    | error e => cases h
    | ok j =>
      cases h
      exact handout_of_openTag (p := { p with scanner, betweenParagraphs := false }) hp hq
  | case7 p hr tag scanner hs r hc _ ih =>
    rw [closeTag_nothing hc] at ih ⊢
    exact ih
  | case8 p hr tag scanner hs j r hc =>
    intro hp h
    cases h
    exact handout_of_closeTag (p := { p with scanner }) hp hc
  | case9 => simp

/-- The end of the text is reached between tags, and nothing but the place in it has changed. -/
theorem standing_of_parseNext_none {p q : Parser α} (h : p.parseNext = (.ok none, q)) :
    q.setup = p.setup ∧ q.standing = p.standing ∧ q.openTags = [] := by
  revert h
  fun_induction parseNext p with
  | case1 p run runs hr _ _ _ ih => exact ih
  | case2 => simp
  | case3 => simp
  | case4 p hr scanner hs =>
    intro h
    unfold atEnd at h
    split at h
    · next ho =>
      cases h
      exact ⟨rfl, rfl, ho⟩
    · cases h
  | case5 p hr runs scanner hs _ ih => exact ih
  | case6 p hr tag options scanner hs j r hq =>
    intro h
    cases j <;> cases h
  | case7 p hr tag scanner hs r hc _ ih =>
    rw [closeTag_nothing hc] at ih ⊢
    exact ih
  | case8 => simp
  | case9 => simp

/-- All that a call that hands something out can do. -/
theorem handout_of_next {p q : Parser α} {i : Instruction α} (h : p.next = (.ok (some i), q)) :
    q.setup = p.setup ∧ Handout p.setup p.standing i q.standing := by
  unfold next at h
  split at h
  · next j rest hp =>
    cases h
    exact ⟨rfl, .waiting (s := p.standing) hp⟩
  · next hp =>
    split at h
    · next j r hr =>
      cases h
      rw [setup_noteLine]
      exact handout_of_parseNext hp hr
    · next r hne hr =>
      cases h
      exact absurd rfl (hne i)

theorem standing_of_next_none {p q : Parser α} (h : p.next = (.ok none, q)) :
    q.setup = p.setup ∧ q.standing = p.standing ∧ p.pushed = [] ∧ p.openTags = [] := by
  unfold next at h
  split at h
  · cases h
  · next hp =>
    split at h
    · cases h
    · next r hne hr =>
      cases h
      obtain ⟨hsetup, hstanding, hopen⟩ := standing_of_parseNext_none hr
      refine ⟨hsetup, hstanding, hp, ?_⟩
      have htags : q.standing.openTags = p.standing.openTags := by rw [hstanding]
      exact htags.symm.trans hopen

end Parser

/-! ## Runs of calls -/

structure Handed (α : Type) where
  item : Instruction α
  /-- It waited to come out, and was not read from the text just now. -/
  waited : Bool

/-- `Reads p out q`: calling `p` again and again hands out `out` and leaves `q`. -/
inductive Reads (p : Parser α) : List (Handed α) → Parser α → Prop where
  | start : Reads p [] p
  | next {out : List (Handed α)} {q r : Parser α} {i : Instruction α} (h : Reads p out q)
      (hn : q.next = (.ok (some i), r)) :
      Reads p (out ++ [{ item := i, waited := !q.pushed.isEmpty }]) r

namespace Reads

variable {p q r : Parser α} {out : List (Handed α)} {i : Instruction α}

/-- What one call keeps, a run keeps. -/
theorem keep {P : List (Handed α) → Standing α → Prop} (h : Reads p out q)
    (hstart : P [] p.standing)
    (hstep : ∀ {out s i t}, P out s → Handout p.setup s i t →
      P (out ++ [{ item := i, waited := !s.pushed.isEmpty }]) t) :
    q.setup = p.setup ∧ P out q.standing := by
  induction h with
  | start => exact ⟨rfl, hstart⟩
  | next h hn ih =>
    obtain ⟨hsetup, hkept⟩ := ih
    obtain ⟨hsame, hout⟩ := Parser.handout_of_next hn
    rw [hsetup] at hsame hout
    exact ⟨hsame, hstep hkept hout⟩

theorem head (hn : p.next = (.ok (some i), q)) (h : Reads q out r) :
    Reads p ({ item := i, waited := !p.pushed.isEmpty } :: out) r := by
  induction h with
  | start => exact .next .start hn
  | next h hn ih => exact .next ih hn

/-- A run goes through each of its instructions. -/
theorem split {front back : List (Handed α)} {j : Handed α}
    (h : Reads p (front ++ j :: back) r) :
    ∃ q s, Reads p front q ∧ q.next = (.ok (some j.item), s) := by
  induction back using List.reverseRecOn generalizing r with
  | nil =>
    generalize hout : front ++ [j] = out at h
    cases h with
    | start => simp at hout
    | next h hn =>
      obtain ⟨rfl, hlast⟩ := List.append_inj' hout rfl
      cases hlast
      exact ⟨_, _, h, hn⟩
  | append_singleton back k ih =>
    generalize hout : front ++ j :: (back ++ [k]) = out at h
    rw [← List.cons_append, ← List.append_assoc] at hout
    cases h with
    | start => simp at hout
    | next h hn =>
      obtain ⟨rfl, -⟩ := List.append_inj' hout rfl
      exact ih h

end Reads

/-- All that a parser hands out up to the end of its text. -/
def Parser.handouts (p : Parser α) : Except Error (List (Handed α)) × Parser α :=
  match h : p.next with
  | (.error e, q) => (.error e, q)
  | (.ok none, q) => (.ok [], q)
  | (.ok (some i), q) =>
    have : q.remaining < p.remaining := Source.remaining_lt (s := p) (t := q) h
    let (more, r) := q.handouts
    (more.map ({ item := i, waited := !p.pushed.isEmpty } :: ·), r)
termination_by p.remaining

theorem reads_of_handouts {p r : Parser α} {out : List (Handed α)}
    (h : p.handouts = (.ok out, r)) : ∃ q, Reads p out q ∧ q.next = (.ok none, r) := by
  revert h
  fun_induction Parser.handouts p generalizing out with
  | case1 => simp
  | case2 p q hn =>
    intro h
    cases h
    exact ⟨p, .start, hn⟩
  | case3 p i q hn _ more s hmore ih =>
    intro h
    cases more with
    | error e => cases h
    | ok more =>
      cases h
      obtain ⟨t, hreads, hend⟩ := ih hmore
      exact ⟨t, hreads.head hn, hend⟩

/-! ## Texts to read -/

namespace Sample

def setup : Setup Rat := { fonts, registry := .builtin, mode := .word }

def parser (text : String) : Parser Rat := .ofText text state setup

end Sample

end Paragraph
end Galley
