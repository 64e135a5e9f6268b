import Galley.Proofs.Paragraph.Handout

/-
The stream of a text is balanced over the chain of style states.

`Balanced s items` is a grammar for what stands under a state `s`: text and breaks that carry `s`,
and elements, each of which has a child state of `s` of its own, carried by its start and its end
and around everything in it.  A text that is read to its end hands out a balanced stream under the
root, and the style goes back to the root (`stream_balanced`).

States with the same settings are told apart by their serials.  Those of the starts go up along the
stream, so an end that carries the state of a start carries that of no other.
-/

namespace Galley
namespace Paragraph

open Font Style

variable {α : Type}

/-! ## Derived states -/

theorem derive_child [Scalar α] {s child : StyleState α} {serial : Nat} {delta : TagStyle α}
    {fonts : FontService α} {registry : Registry α}
    (h : s.derive serial delta fonts registry = .ok child) :
    child.serial = serial ∧ child.parent? = some s := by
  unfold StyleState.derive at h
  dsimp only at h
  -- with a size of its own or not, and with a colour of its own or not
  split at h
  all_goals
    obtain ⟨_, -, h⟩ := exists_of_bind_ok h
    obtain ⟨_, -, h⟩ := exists_of_bind_ok h
    split at h
    all_goals
      obtain ⟨_, -, h⟩ := exists_of_bind_ok h
      cases h
      exact ⟨rfl, rfl⟩

/-! ## The grammar -/

/-- Stands by itself: text, or a break that no tag encloses. -/
def Kind.isLeaf : Kind α → Bool
  | .text _ | .lineBreak | .pageBreak => true
  | _ => false

/-- Starts the scope of a tag, a link or a paragraph. -/
def Kind.isOpening : Kind α → Bool
  | .tagOpen _ | .linkStart .. | .paragraphStart _ => true
  | _ => false

/-- The start and the end of one element. -/
inductive Kind.Pairs : Kind α → Kind α → Prop where
  | tag (tag : String) : Pairs (.tagOpen tag) (.tagClose tag)
  | link (anchor target : Option String) : Pairs (.linkStart anchor target) .linkEnd
  | paragraph (indent : α) : Pairs (.paragraphStart indent) .paragraphEnd

inductive Balanced : StyleState α → List (Instruction α) → Prop where
  | nil (s : StyleState α) : Balanced s []
  | leaf {s : StyleState α} {i : Instruction α} {rest : List (Instruction α)}
      (hk : i.kind.isLeaf = true) (hs : i.state = s) (hrest : Balanced s rest) :
      Balanced s (i :: rest)
  | element {s : StyleState α} {first last : Instruction α} {body rest : List (Instruction α)}
      (hk : first.kind.Pairs last.kind) (hparent : first.state.parent? = some s)
      (hsame : last.state = first.state) (hbody : Balanced first.state body)
      (hrest : Balanced s rest) : Balanced s (first :: (body ++ last :: rest))

namespace Balanced

variable {s : StyleState α} {xs ys : List (Instruction α)}

theorem append (hx : Balanced s xs) (hy : Balanced s ys) : Balanced s (xs ++ ys) := by
  induction hx with
  | nil s => exact hy
  | leaf hk hs _ ih => exact .leaf hk hs (ih hy)
  | element hk hparent hsame hbody _ _ ih =>
    rw [List.cons_append, List.append_assoc, List.cons_append]
    exact .element hk hparent hsame hbody (ih hy)

theorem singleton {i : Instruction α} (hk : i.kind.isLeaf = true) : Balanced i.state [i] :=
  .leaf hk rfl (.nil i.state)

end Balanced

/-- Serials of the states that elements start with. -/
def openingSerials (items : List (Instruction α)) : List Nat :=
  (items.filter fun i => i.kind.isOpening).map fun i => i.state.serial

theorem openingSerials_append (xs ys : List (Instruction α)) :
    openingSerials (xs ++ ys) = openingSerials xs ++ openingSerials ys := by
  unfold openingSerials
  rw [List.filter_append, List.map_append]

theorem openingSerials_opening {i : Instruction α} (h : i.kind.isOpening = true) :
    openingSerials [i] = [i.state.serial] := by
  simp [openingSerials, h]

theorem openingSerials_other {i : Instruction α} (h : i.kind.isOpening = false) :
    openingSerials [i] = [] := by
  simp [openingSerials, h]

/-! ## In the middle of a text -/

/-- `Within root items tags s`: after `items` the tags `tags` are open, the innermost first, and
what comes next stands under `s`. -/
inductive Within (root : StyleState α) :
    List (Instruction α) → List (OpenTag α) → StyleState α → Prop where
  | root {items : List (Instruction α)} (h : Balanced root items) : Within root items [] root
  | scope {items body : List (Instruction α)} {tags : List (OpenTag α)} {opened : OpenTag α}
      {first : Instruction α} (h : Within root items tags opened.enclosing)
      (hk : OpensAs opened.tag first.kind opened.scope)
      (hparent : first.state.parent? = some opened.enclosing)
      (hbody : Balanced first.state body) :
      Within root (items ++ first :: body) (opened :: tags) first.state

namespace Within

variable {root s : StyleState α} {items more : List (Instruction α)} {tags : List (OpenTag α)}
  {opened : OpenTag α}

theorem append (h : Within root items tags s) (hmore : Balanced s more) :
    Within root (items ++ more) tags s := by
  cases h with
  | root h => exact .root (h.append hmore)
  | scope h hk hparent hbody =>
    rw [List.append_assoc, List.cons_append]
    exact .scope h hk hparent (hbody.append hmore)

theorem enter {first : Instruction α} (h : Within root items tags opened.enclosing)
    (hk : OpensAs opened.tag first.kind opened.scope)
    (hparent : first.state.parent? = some opened.enclosing) :
    Within root (items ++ [first]) (opened :: tags) first.state :=
  .scope h hk hparent (.nil first.state)

theorem pairs_of_opensAs {first last : Kind α} (hk : OpensAs opened.tag first opened.scope)
    (hlast : last = Parser.closingKind opened.tag opened.scope) : first.Pairs last := by
  generalize opened.scope = scope at hk hlast
  cases hk with
  | inline =>
    rw [hlast]
    exact .tag opened.tag
  | link anchor target =>
    rw [hlast]
    exact .link anchor target
  | block indent =>
    rw [hlast]
    exact .paragraph indent

theorem closed (h : Within root items [] s) : Balanced root items ∧ s = root := by
  cases h with
  | root h => exact ⟨h, rfl⟩

/-- The end of the innermost tag makes an element of all that came since its start. -/
theorem leave {last : Instruction α} (h : Within root items (opened :: tags) s)
    (hk : last.kind = Parser.closingKind opened.tag opened.scope) (hs : last.state = s) :
    Within root (items ++ [last]) tags opened.enclosing := by
  cases h with
  | @scope before body _ _ first h hopens hparent hbody =>
    have helement : Balanced opened.enclosing (first :: (body ++ [last])) :=
      .element (pairs_of_opensAs hopens hk) hparent hs hbody (.nil _)
    rw [List.append_assoc, List.cons_append]
    exact h.append helement

end Within

/-! ## What every call keeps -/

section

variable {root : StyleState α} {items : List (Instruction α)} {i : Instruction α} {next : Nat}

theorem isOpening_of_opensAs {tag : String} {kind : Kind α} {scope : Scope}
    (h : OpensAs tag kind scope) : kind.isOpening = true := by
  cases h <;> rfl

theorem isOpening_closingKind (tag : String) (scope : Scope) :
    (Parser.closingKind tag scope : Kind α).isOpening = false := by
  cases scope <;> rfl

theorem isOpening_of_isLeaf {kind : Kind α} (h : kind.isLeaf = true) :
    kind.isOpening = false := by
  cases kind with
  | text content => rfl
  | lineBreak => rfl
  | pageBreak => rfl
  | _ => cases h

/-- Serials of the root and of the starts so far, and the next one to be given, go up. -/
def SerialsRise (root : StyleState α) (items : List (Instruction α)) (next : Nat) : Prop :=
  (root.serial :: (openingSerials items ++ [next])).Pairwise (· < ·)

theorem SerialsRise.other (h : SerialsRise root items next) (hi : i.kind.isOpening = false) :
    SerialsRise root (items ++ [i]) next := by
  unfold SerialsRise
  rw [openingSerials_append, openingSerials_other hi, List.append_nil]
  exact h

theorem SerialsRise.opening (h : SerialsRise root items next) (hi : i.kind.isOpening = true)
    (hs : i.state.serial = next) : SerialsRise root (items ++ [i]) (next + 1) := by
  unfold SerialsRise at h ⊢
  rw [openingSerials_append, openingSerials_opening hi, hs, ← List.cons_append,
    List.pairwise_append]
  refine ⟨h, List.pairwise_singleton _ _, ?_⟩
  intro a ha b hb
  rw [List.mem_singleton.1 hb]
  rcases List.mem_append.1 (show a ∈ (root.serial :: openingSerials items) ++ [next] from ha)
    with ha | ha
  · have hlt := (List.pairwise_append.1 (show ((root.serial :: openingSerials items) ++
      [next]).Pairwise (· < ·) from h)).2.2 a ha next (List.mem_singleton_self next)
    omega
  · rw [List.mem_singleton.1 ha]
    exact Nat.lt_succ_self next

end

variable [Scalar α]

/-- What every call keeps.  What waits to come out counts as handed out: its scope is open. -/
structure Nested (root : StyleState α) (items : List (Instruction α)) (s : Standing α) :
    Prop where
  within : Within root items s.openTags s.state
  serials : SerialsRise root items s.nextSerial

namespace Nested

variable {root : StyleState α} {items : List (Instruction α)} {s t : Standing α}
  {i : Instruction α} {setup : Setup α}

omit [Scalar α] in
theorem leaf (h : Nested root items s) (hk : i.kind.isLeaf = true) (hs : i.state = s.state) :
    Nested root (items ++ [i]) s where
  within := by
    have hone : Balanced i.state [i] := .singleton hk
    rw [hs] at hone
    exact h.within.append hone
  serials := h.serials.other (isOpening_of_isLeaf hk)

theorem enter {tag : String} {scope : Scope} {position : Nat} {style : TagStyle α}
    {child : StyleState α} (h : Nested root items s) (hk : OpensAs tag i.kind scope)
    (hd : s.state.derive s.nextSerial style setup.fonts setup.registry = .ok child)
    (hs : i.state = child) :
    Nested root (items ++ [i])
      (s.enter { tag, scope, enclosing := s.state, position } child) := by
  obtain ⟨hserial, hparent⟩ := derive_child hd
  subst hs
  constructor
  · let opened : OpenTag α := { tag, scope, enclosing := s.state, position }
    have haround : Within root items s.openTags opened.enclosing := h.within
    exact haround.enter hk hparent
  · exact h.serials.opening (isOpening_of_opensAs hk) hserial

omit [Scalar α] in
theorem leave {opened : OpenTag α} {openTags : List (OpenTag α)} (h : Nested root items s)
    (ho : s.openTags = opened :: openTags)
    (hk : i.kind = Parser.closingKind opened.tag opened.scope) (hs : i.state = s.state) :
    Nested root (items ++ [i]) (s.leave opened openTags) where
  within := by
    have hwithin := h.within
    rw [ho] at hwithin
    exact hwithin.leave hk hs
  serials := h.serials.other (by rw [hk]; exact isOpening_closingKind opened.tag opened.scope)

theorem note (h : Nested root items s) (i : Instruction α) : Nested root items (s.note i) where
  within := by
    rw [Standing.note_openTags, Standing.note_state]
    exact h.within
  serials := by
    rw [Standing.note_nextSerial]
    exact h.serials

end Nested

theorem ofKind_state (kind : Kind α) (s : StyleState α) (fonts : FontService α) :
    (Instruction.ofKind kind s fonts).state = s := by
  cases kind <;> rfl

theorem ofKind_opening {tag : String} {kind : Kind α} {scope : Scope} (h : OpensAs tag kind scope)
    (s : StyleState α) (fonts : FontService α) : (Instruction.ofKind kind s fonts).kind = kind := by
  cases h <;> rfl

theorem ofKind_closing (tag : String) (scope : Scope) (s : StyleState α) (fonts : FontService α) :
    (Instruction.ofKind (Parser.closingKind tag scope) s fonts).kind =
      Parser.closingKind tag scope := by
  cases scope <;> rfl

theorem Nested.step {root : StyleState α} {setup : Setup α} {items : List (Instruction α)}
    {s t : Standing α} {i : Instruction α} (hout : Handout setup s i t)
    (h : Nested root (items ++ s.pushed) s) : Nested root (items ++ [i] ++ t.pushed) t := by
  cases hout with
  | waiting hp =>
    rw [hp] at h
    rw [List.append_assoc]
    exact ⟨h.within, h.serials⟩
  | text hp hk hs =>
    rw [hp, List.append_nil] at h
    rw [Standing.note_pushed, hp, List.append_nil]
    exact (h.leaf (by rw [hk]; rfl) hs).note _
  | void hp hk =>
    rw [hp, List.append_nil] at h
    rw [Standing.note_pushed, hp, List.append_nil]
    refine (h.leaf ?_ (ofKind_state _ _ _)).note _
    rcases hk with rfl | rfl
    · rfl
    · rfl
  | opening hp hk hd hl =>
    rw [hp, List.append_nil] at h
    rw [Standing.note_pushed, show (s.enter _ _).pushed = s.pushed from rfl, hp, List.append_nil]
    exact (h.enter (by rwa [ofKind_opening hk]) hd (ofKind_state _ _ _)).note _
  | @openingInLine tag kind position style child hp hk hd hl =>
    rw [hp, List.append_nil] at h
    have hbreak := h.leaf (i := .ofKind .lineBreak s.state setup.fonts) rfl rfl
    have hblock : Nested root
        (items ++ [.ofKind .lineBreak s.state setup.fonts] ++ [.ofKind kind child setup.fonts])
        (s.enter { tag, scope := .block, enclosing := s.state, position } child) :=
      hbreak.enter (by rwa [ofKind_opening hk]) hd (ofKind_state _ _ _)
    exact ⟨hblock.within, hblock.serials⟩
  | closing hp ho =>
    rw [hp, List.append_nil] at h
    rw [Standing.note_pushed, show (s.leave _ _).pushed = s.pushed from rfl, hp, List.append_nil]
    exact (h.leave ho (ofKind_closing _ _ _ _) (ofKind_state _ _ _)).note _

theorem nested_of_reads {text : String} {root : StyleState α} {setup : Setup α}
    {out : List (Handed α)} {p : Parser α} (h : Reads (.ofText text root setup) out p) :
    Nested root (out.map Handed.item ++ p.pushed) p.standing := by
  refine (h.keep (P := fun out s => Nested root (out.map Handed.item ++ s.pushed) s) ?_ ?_).2
  · refine ⟨.root (.nil root), ?_⟩
    show List.Pairwise (· < ·) [root.serial, root.serial + 1]
    rw [List.pairwise_pair]
    exact Nat.lt_succ_self root.serial
  · intro out s i t hnested hout
    rw [List.map_append]
    exact hnested.step hout

/-- A text that is read to its end hands out a balanced stream under the root.  Each element starts
under a state of its own, and the style in force goes back to the root. -/
theorem stream_balanced {text : String} {root : StyleState α} {setup : Setup α}
    {out : List (Handed α)} {q : Parser α}
    (h : (Parser.ofText text root setup).handouts = (.ok out, q)) :
    Balanced root (out.map Handed.item) ∧
      (root.serial :: openingSerials (out.map Handed.item)).Pairwise (· < ·) ∧
        q.state = root := by
  obtain ⟨p, hreads, hend⟩ := reads_of_handouts h
  obtain ⟨hwithin, hserials⟩ := nested_of_reads hreads
  obtain ⟨-, hstanding, hpushed, hopen⟩ := Parser.standing_of_next_none hend
  have hstate : q.state = p.state := congrArg Standing.state hstanding
  rw [show p.standing.openTags = [] from hopen, hpushed, List.append_nil] at hwithin
  rw [hpushed, List.append_nil] at hserials
  obtain ⟨hbalanced, hroot⟩ := hwithin.closed
  refine ⟨hbalanced, ?_, hstate.trans hroot⟩
  exact (List.pairwise_append.1 (show ((root.serial :: openingSerials (out.map Handed.item)) ++
    [p.nextSerial]).Pairwise (· < ·) from hserials)).1

/-- A tag around a break, a link, and a block that is opened inside the line. -/
def Sample.nestedTags : Parser Rat := parser "<b>x<br>y</b><a href='u'>z</a><center>w</center>"

theorem stream_balanced_tags :
    ∃ out q, Sample.nestedTags.handouts = (.ok out, q) ∧
      out.map (fun j => j.item.kind) = [.tagOpen "b", .text "x", .lineBreak, .text "y",
        .tagClose "b", .linkStart none (some "u"), .text "z", .linkEnd, .lineBreak,
        .paragraphStart 0, .text "w", .paragraphEnd] ∧
      Balanced Sample.state (out.map Handed.item) ∧ q.state = Sample.state := by
  have hkinds : (Sample.nestedTags.handouts.1.map fun out => out.map fun j => j.item.kind) =
      .ok [.tagOpen "b", .text "x", .lineBreak, .text "y", .tagClose "b",
        .linkStart none (some "u"), .text "z", .linkEnd, .lineBreak, .paragraphStart 0, .text "w",
        .paragraphEnd] := by decide +kernel
  obtain ⟨out, hout, hlist⟩ := exists_of_map_ok hkinds
  have h : Sample.nestedTags.handouts = (.ok out, Sample.nestedTags.handouts.2) :=
    Prod.ext hout rfl
  obtain ⟨hbalanced, -, hroot⟩ := stream_balanced h
  exact ⟨out, _, h, hlist, hbalanced, hroot⟩

end Paragraph
end Galley
