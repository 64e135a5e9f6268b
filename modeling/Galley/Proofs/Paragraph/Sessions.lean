import Mathlib
import Galley.Proofs.Paragraph.Yields

/-
A parser used call by call.

A caller takes instructions, looks ahead, puts back what it took last, and breaks lines, in any
order.  What it is told depends on the instructions of the text alone: the parser mirrors the list
of them (`Session.Mirrors`), and each call keeps it so (`Session.Mirrors.call`), whatever the
parser has read ahead by then.
-/

namespace Galley
namespace Paragraph

open Source Style

/-- A stream that tells what comes next without handing it out. -/
class Lookahead (σ : Type) (α : outParam Type) where
  peek : σ → Except Error (Option (Instruction α)) × σ
  atEos : σ → Except Error Bool × σ

instance {α : Type} [Scalar α] : Lookahead (Parser α) α where
  peek := Parser.peek
  atEos := Parser.atEos

instance {α : Type} : Lookahead (List (Instruction α)) α where
  peek items := (.ok items.head?, items)
  atEos items := (.ok items.isEmpty, items)

inductive Call (α : Type) where
  | next
  | peek
  | eos
  /-- Gives back what was taken last and has not been given back. -/
  | putBack
  | line (width : α)

inductive Answer (α : Type) where
  | item (result : Except Error (Option (Instruction α)))
  | ended (result : Except Error Bool)
  | line (result : Except Error (Option (Line α)))
  | quiet

/-- A stream with what its caller has taken from it since the last line, the latest first. -/
structure Session (σ α : Type) where
  source : σ
  taken : List (Instruction α) := []

namespace Session

variable {σ α : Type} [Source σ α] [Lookahead σ α] [Scalar α]

def call (s : Session σ α) : Call α → Answer α × Session σ α
  | .next =>
    match next s.source with
    | (.ok (some i), source) => (.item (.ok (some i)), { source, taken := i :: s.taken })
    | (r, source) => (.item r, { s with source })
  | .peek =>
    let (r, source) := Lookahead.peek s.source
    (.item r, { s with source })
  | .eos =>
    let (r, source) := Lookahead.atEos s.source
    (.ended r, { s with source })
  | .putBack =>
    match s.taken with
    | [] => (.quiet, s)
    | i :: taken => (.quiet, { source := giveBack i s.source, taken })
  | .line width =>
    let (r, source) := greedyLine width s.source
    (.line r, { source })

def answers (s : Session σ α) : List (Call α) → List (Answer α)
  | [] => []
  | c :: calls => (s.call c).1 :: (s.call c).2.answers calls

/-- One caller has a stream and the other the list that the stream hands out. -/
structure Mirrors (s : Session σ α) (l : Session (List (Instruction α)) α) : Prop where
  yields : Yields s.source l.source
  taken : s.taken = l.taken

end Session

variable {α : Type} [Scalar α]

theorem Parser.yields_of_peek {p : Parser α} {items : List (Instruction α)} (h : Yields p items) :
    ∃ q, p.peek = (.ok items.head?, q) ∧ Yields q items := by
  obtain ⟨q, hpeek, hnext⟩ := p.next_of_peek h
  refine ⟨q, hpeek, ?_⟩
  cases h with
  | nil h => exact .nil (hnext.trans h)
  | cons h hmore => exact .cons (hnext.trans h) hmore

namespace Session

theorem Mirrors.call {s : Session (Parser α) α} {l : Session (List (Instruction α)) α}
    (h : Mirrors s l) (c : Call α) :
    (s.call c).1 = (l.call c).1 ∧ Mirrors (s.call c).2 (l.call c).2 := by
  obtain ⟨p, taken⟩ := s
  obtain ⟨items, taken'⟩ := l
  obtain ⟨hyields, htaken⟩ := h
  obtain rfl : taken = taken' := htaken
  dsimp only at hyields
  cases c with
  | next =>
    cases hyields with
    | @nil _ q hn =>
      have hp : Session.call { source := p, taken } .next =
          (.item (.ok none), { source := q, taken }) := by
        simp only [Session.call, hn]
      rw [hp]
      exact ⟨rfl, .of_end hn, rfl⟩
    | @cons _ q i items hn hmore =>
      have hp : Session.call { source := p, taken } .next =
          (.item (.ok (some i)), { source := q, taken := i :: taken }) := by
        simp only [Session.call, hn]
      rw [hp]
      exact ⟨rfl, hmore, rfl⟩
  | peek =>
    obtain ⟨q, hpeek, hq⟩ := Parser.yields_of_peek hyields
    have hp : Session.call { source := p, taken } .peek =
        (.item (.ok items.head?), { source := q, taken }) := by
      show (Answer.item p.peek.1, Session.mk p.peek.2 taken) = _
      rw [hpeek]
    rw [hp]
    exact ⟨rfl, hq, rfl⟩
  | eos =>
    obtain ⟨q, hpeek, hq⟩ := Parser.yields_of_peek hyields
    have hp : Session.call { source := p, taken } .eos =
        (.ended (.ok items.isEmpty), { source := q, taken }) := by
      show (Answer.ended (p.peek.1.map Option.isNone), Session.mk p.peek.2 taken) = _
      rw [hpeek]
      cases items <;> rfl
    rw [hp]
    exact ⟨rfl, hq, rfl⟩
  | putBack =>
    cases taken with
    | nil => exact ⟨rfl, hyields, rfl⟩
    | cons i taken => exact ⟨rfl, hyields.giveBack i, rfl⟩
  | line width =>
    obtain ⟨r, q, rest, hp, hitems, hq⟩ := agrees_greedyLine hyields width
    have hline : Session.call { source := p, taken } (.line width) =
        (.line (.ok r), { source := q }) := by
      simp only [Session.call, hp]
    have hline' : Session.call { source := items, taken } (.line width) =
        (.line (.ok r), { source := rest }) := by
      simp only [Session.call, hitems]
    rw [hline, hline']
    exact ⟨rfl, hq, rfl⟩

theorem Mirrors.answers {s : Session (Parser α) α} {l : Session (List (Instruction α)) α}
    (h : Mirrors s l) (calls : List (Call α)) : s.answers calls = l.answers calls := by
  induction calls generalizing s l with
  | nil => rfl
  | cons c calls ih =>
    obtain ⟨hanswer, hmirrors⟩ := h.call c
    rw [Session.answers, Session.answers, hanswer, ih hmirrors]

end Session

/-- Whatever a caller does with a parser, it is told what it would be told of the list of the
instructions of the text; in particular lines of any widths come out the same. -/
theorem parser_answers_as_list {text : String} {root : StyleState α} {setup : Setup α}
    {out : List (Handed α)} {q : Parser α}
    (h : (Parser.ofText text root setup).handouts = (.ok out, q)) (calls : List (Call α)) :
    Session.answers { source := Parser.ofText text root setup } calls =
      Session.answers { source := out.map Handed.item } calls :=
  Session.Mirrors.answers ⟨Parser.yields_of_handouts h, rfl⟩ calls

/-- A block inside a line, whose start the parser keeps behind the break before it. -/
theorem parser_answers_as_block :
    ∃ out q, (Parser.ofText "x<center>y</center>" Sample.state Sample.setup).handouts =
        (.ok out, q) ∧ out.length = 5 ∧
      ∀ calls, Session.answers
          { source := Parser.ofText "x<center>y</center>" Sample.state Sample.setup } calls =
        Session.answers { source := out.map Handed.item } calls := by
  have hread : ((Sample.parser "x<center>y</center>").handouts.1.map List.length) = .ok 5 := by
    decide +kernel
  obtain ⟨out, hout, hlength⟩ := exists_of_map_ok hread
  have h : (Parser.ofText "x<center>y</center>" Sample.state Sample.setup).handouts =
      (.ok out, (Sample.parser "x<center>y</center>").handouts.2) := Prod.ext hout rfl
  exact ⟨out, _, h, hlength, parser_answers_as_list h⟩

end Paragraph
end Galley
