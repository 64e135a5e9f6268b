import Galley.Proofs.Paragraph.Nesting

/-
Links as spans of a stream.

In a balanced stream each start of a link has an end.  `Spans n items spans` reads the pairs off the
stream, whose instructions are numbered from `n` on: the links in a link's body are read there, and
those behind its end after it.

Whoever goes along the stream knows a link only from its start on.  `Closes` is the same stream as
such a walk sees it, with the links that are open kept on a stack, and with the end of each already
told when it starts.  `Spans.closes` makes a walk of a balanced stream, and `Reading.line` is what
a piece of the stream, such as a line, makes of the links: those that end on it, those that are left
open behind it, and those that have nothing to do with it.
-/

namespace Galley
namespace Drawing

open Paragraph

variable {α : Type}

/-- A link by the numbers of its start and its end in the stream. -/
structure Span where
  target : Option String
  first : Nat
  last : Nat
  deriving DecidableEq

inductive Spans : Nat → List (Instruction α) → List Span → Prop where
  | nil (n : Nat) : Spans n [] []
  | other {n : Nat} {i : Instruction α} {rest : List (Instruction α)} {spans : List Span}
      (hi : i.isLink = false) (hrest : Spans (n + 1) rest spans) : Spans n (i :: rest) spans
  | link {n : Nat} {first last : Instruction α} {anchor target : Option String}
      {body rest : List (Instruction α)} {inner outer : List Span}
      (hfirst : first.kind = .linkStart anchor target) (hlast : last.kind = .linkEnd)
      (hbody : Spans (n + 1) body inner) (hrest : Spans (n + 1 + body.length + 1) rest outer) :
      Spans n (first :: (body ++ last :: rest))
        ({ target, first := n, last := n + 1 + body.length } :: (inner ++ outer))

/-- With the links `stack` open, the innermost first, the instructions from number `n` on end the
links `closed` and leave `left` open. -/
inductive Closes : Nat → List Span → List (Instruction α) → List Span → List Span → Prop where
  | nil (n : Nat) (stack : List Span) : Closes n stack [] [] stack
  | other {n : Nat} {i : Instruction α} {rest : List (Instruction α)}
      {stack closed left : List Span} (hi : i.isLink = false)
      (hrest : Closes (n + 1) stack rest closed left) : Closes n stack (i :: rest) closed left
  | start {n last : Nat} {i : Instruction α} {anchor target : Option String}
      {rest : List (Instruction α)} {stack closed left : List Span}
      (hi : i.kind = .linkStart anchor target)
      (hrest : Closes (n + 1) ({ target, first := n, last } :: stack) rest closed left) :
      Closes n stack (i :: rest) closed left
  | stop {n : Nat} {i : Instruction α} {span : Span} {rest : List (Instruction α)}
      {stack closed left : List Span} (hi : i.kind = .linkEnd) (hlast : span.last = n)
      (hrest : Closes (n + 1) stack rest closed left) :
      Closes n (span :: stack) (i :: rest) (span :: closed) left

section

variable {n : Nat} {items more : List (Instruction α)} {stack closed middle later left : List Span}

theorem Closes.append {m : Nat} (h : Closes n stack items closed middle)
    (hmore : Closes m middle more later left) (hm : m = n + items.length) :
    Closes n stack (items ++ more) (closed ++ later) left := by
  induction h with
  | nil n stack =>
    rw [hm] at hmore
    exact hmore
  | other hi _ ih => exact .other hi (ih hmore (by rw [hm, List.length_cons]; omega))
  | start hi _ ih => exact .start hi (ih hmore (by rw [hm, List.length_cons]; omega))
  | stop hi hlast _ ih => exact .stop hi hlast (ih hmore (by rw [hm, List.length_cons]; omega))

theorem Closes.split (h : Closes n stack (items ++ more) closed left) :
    ∃ ended middle later, closed = ended ++ later ∧ Closes n stack items ended middle ∧
      Closes (n + items.length) middle more later left := by
  induction items generalizing n stack closed with
  | nil => exact ⟨[], stack, closed, rfl, .nil n stack, h⟩
  | cons i items ih =>
    have hlength : n + 1 + items.length = n + (i :: items).length := by
      rw [List.length_cons, Nat.add_comm items.length 1, Nat.add_assoc]
    rw [List.cons_append] at h
    cases h with
    | other hi hrest =>
      obtain ⟨ended, middle, later, rfl, hended, hlater⟩ := ih hrest
      rw [hlength] at hlater
      exact ⟨ended, middle, later, rfl, .other hi hended, hlater⟩
    | start hi hrest =>
      obtain ⟨ended, middle, later, rfl, hended, hlater⟩ := ih hrest
      rw [hlength] at hlater
      exact ⟨ended, middle, later, rfl, .start hi hended, hlater⟩
    | @stop _ _ span _ _ _ _ hi hlast hrest =>
      obtain ⟨ended, middle, later, rfl, hended, hlater⟩ := ih hrest
      rw [hlength] at hlater
      exact ⟨span :: ended, middle, later, rfl, .stop hi hlast hended, hlater⟩

/-- A balanced stream ends its links and no others. -/
theorem Spans.closes {spans : List Span} (h : Spans n items spans) (stack : List Span) :
    ∃ closed, Closes n stack items closed stack ∧ closed.Perm spans := by
  induction h generalizing stack with
  | nil n => exact ⟨[], .nil n stack, .refl []⟩
  | other hi _ ih =>
    obtain ⟨closed, hcloses, hperm⟩ := ih stack
    exact ⟨closed, .other hi hcloses, hperm⟩
  | @link n _ _ _ target body rest inner outer hfirst hlast _ _ ihbody ihrest =>
    obtain ⟨within, hwithin, hinner⟩ :=
      ihbody ({ target, first := n, last := n + 1 + body.length } :: stack)
    obtain ⟨behind, hbehind, houter⟩ := ihrest stack
    refine ⟨within ++ { target, first := n, last := n + 1 + body.length } :: behind,
      .start hfirst (hwithin.append (.stop hlast rfl hbehind) rfl), ?_⟩
    exact List.perm_middle.trans ((hinner.append houter).cons _)

/-- What is open in front of instructions and what starts in them is ended in them or left open. -/
theorem Closes.account (h : Closes n stack items closed left) :
    (∀ s ∈ closed, n ≤ s.last ∧ s.last < n + items.length) ∧
      ∃ started, (closed ++ left).Perm (stack ++ started) ∧
        ∀ s ∈ started, n ≤ s.first ∧ s.first < n + items.length := by
  induction h with
  | nil n stack => exact ⟨by simp, [], by simp, by simp⟩
  | other _ _ ih =>
    obtain ⟨hclosed, started, hperm, hstarted⟩ := ih
    rw [List.length_cons]
    refine ⟨fun s hs => ?_, started, hperm, fun s hs => ?_⟩
    · have := hclosed s hs
      omega
    · have := hstarted s hs
      omega
  | @start n last i _ target rest stack closed left _ _ ih =>
    obtain ⟨hclosed, started, hperm, hstarted⟩ := ih
    rw [List.length_cons]
    refine ⟨fun s hs => ?_, { target, first := n, last } :: started, ?_, fun s hs => ?_⟩
    · have := hclosed s hs
      omega
    · exact hperm.trans List.perm_middle.symm
    · rcases List.mem_cons.1 hs with rfl | hs
      · dsimp only
        omega
      · have := hstarted s hs
        omega
  | @stop n i span rest stack closed left _ hlast _ ih =>
    obtain ⟨hclosed, started, hperm, hstarted⟩ := ih
    rw [List.length_cons]
    refine ⟨fun s hs => ?_, started, hperm.cons span, fun s hs => ?_⟩
    · rcases List.mem_cons.1 hs with rfl | hs
      · omega
      · have := hclosed s hs
        omega
    · have := hstarted s hs
      omega

end

/-! ## Along the stream -/

/-- In front of the instruction number `n`: of all links some have ended, `stack` is open, and what
is left of the stream ends the others. -/
structure Reading (all : List Span) (n : Nat) (stack : List Span)
    (left : List (Instruction α)) : Prop where
  opened : ∀ s ∈ stack, s.first < n
  rest : ∃ ended coming, all.Perm (ended ++ coming) ∧ (∀ s ∈ ended, s.first < n ∧ s.last < n) ∧
    Closes n stack left coming []

section

variable {all stack : List Span} {n : Nat} {items left : List (Instruction α)}

theorem Reading.of_spans (h : Spans n items all) : Reading all n [] items where
  opened := by simp
  rest := by
    obtain ⟨coming, hcloses, hperm⟩ := h.closes []
    exact ⟨[], coming, hperm.symm, by simp, hcloses⟩

theorem Reading.stack_of_nil (h : Reading all n stack ([] : List (Instruction α))) :
    stack = [] := by
  obtain ⟨ended, coming, -, -, hcloses⟩ := h.rest
  cases hcloses
  rfl

/-- A piece of the stream ends some links and leaves others open behind it.  Whatever is nothing for
a link that has ended in front of the piece, and for one that starts behind it, is for all links
together what it is for those two kinds. -/
theorem Reading.line (h : Reading all n stack (items ++ left)) :
    ∃ ended open_, Closes n stack items ended open_ ∧ Reading all (n + items.length) open_ left ∧
      (∀ s ∈ open_, n + items.length ≤ s.last) ∧
      ∀ {β : Type} (f : Span → Option β), (∀ s, s.first < n → s.last < n → f s = none) →
        (∀ s, n + items.length ≤ s.first → n + items.length ≤ s.last → f s = none) →
        ((ended ++ open_).filterMap f).Perm (all.filterMap f) := by
  obtain ⟨before, coming, hall, hbefore, hcloses⟩ := h.rest
  obtain ⟨ended, open_, later, rfl, hended, hlater⟩ := hcloses.split
  obtain ⟨hlast, started, hperm, hstarted⟩ := hended.account
  obtain ⟨hlasts, starting, hstarting, hfirsts⟩ := hlater.account
  rw [List.append_nil] at hstarting
  have hfirst : ∀ s ∈ ended ++ open_, s.first < n + items.length := by
    intro s hs
    rcases List.mem_append.1 (hperm.mem_iff.1 hs) with hs | hs
    · have := h.opened s hs
      omega
    · exact (hstarted s hs).2
  have hopen : ∀ s ∈ open_, n + items.length ≤ s.last := by
    intro s hs
    exact (hlasts s (hstarting.mem_iff.2 (List.mem_append_left _ hs))).1
  refine ⟨ended, open_, hended, ⟨?_, before ++ ended, later, ?_, ?_, hlater⟩, hopen, ?_⟩
  · exact fun s hs => hfirst s (List.mem_append_right _ hs)
  · rw [List.append_assoc]
    exact hall
  · intro s hs
    rcases List.mem_append.1 hs with hs | hs
    · have := hbefore s hs
      omega
    · exact ⟨hfirst s (List.mem_append_left _ hs), (hlast s hs).2⟩
  · -- of all links `f` drops those that ended before and, among the later ones, those that start
    -- behind the piece
    intro β f hpast hfuture
    have hnone : before.filterMap f = [] := by
      rw [List.filterMap_eq_nil_iff]
      exact fun s hs => hpast s (hbefore s hs).1 (hbefore s hs).2
    have hnone' : starting.filterMap f = [] := by
      rw [List.filterMap_eq_nil_iff]
      intro s hs
      exact hfuture s (hfirsts s hs).1 (hlasts s (hstarting.mem_iff.2 (List.mem_append_right _ hs))).1
    have hlate := hstarting.filterMap f
    rw [List.filterMap_append, hnone', List.append_nil] at hlate
    have hall' := hall.filterMap f
    rw [List.filterMap_append, List.filterMap_append, hnone, List.nil_append] at hall'
    rw [List.filterMap_append]
    exact (hall'.trans (hlate.append_left _)).symm

end

/-! ## Streams of texts -/

theorem Spans.append {n m : Nat} {xs ys : List (Instruction α)} {spans more : List Span}
    (h : Spans n xs spans) (hmore : Spans m ys more) (hm : m = n + xs.length) :
    Spans n (xs ++ ys) (spans ++ more) := by
  induction h with
  | nil n =>
    rw [hm] at hmore
    exact hmore
  | other hi _ ih => exact .other hi (ih (by rw [hm, List.length_cons]; omega))
  | link hfirst hlast hbody _ _ ih =>
    rw [List.cons_append, List.append_assoc, List.cons_append, List.cons_append, List.append_assoc]
    refine .link hfirst hlast hbody (ih ?_)
    rw [hm, List.length_cons, List.length_append, List.length_cons]
    omega

/-- The links of a stream that is balanced over its styles are balanced. -/
theorem spans_of_balanced {s : Style.StyleState α} {items : List (Instruction α)}
    (h : Balanced s items) (n : Nat) : ∃ spans, Spans n items spans := by
  induction h generalizing n with
  | nil => exact ⟨[], .nil n⟩
  | @leaf s i rest hk _ _ ih =>
    obtain ⟨spans, hspans⟩ := ih (n + 1)
    refine ⟨spans, .other ?_ hspans⟩
    unfold Instruction.isLink
    cases hkind : i.kind <;> simp_all [Kind.isLeaf]
  | @element s first last body rest hk _ _ _ _ ihbody ihrest =>
    obtain ⟨inner, hinner⟩ := ihbody (n + 1)
    obtain ⟨outer, houter⟩ := ihrest (n + 1 + body.length + 1)
    generalize hfirst : first.kind = opening at hk
    generalize hlast : last.kind = closing at hk
    cases hk with
    | link anchor target => exact ⟨_, .link hfirst hlast hinner houter⟩
    | tag _ | paragraph _ =>
      refine ⟨inner ++ outer, .other (by simp [Instruction.isLink, hfirst]) (hinner.append ?_ rfl)⟩
      exact .other (by simp [Instruction.isLink, hlast]) houter

end Drawing
end Galley
