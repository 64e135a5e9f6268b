import Galley.Proofs.Everywhere
import Galley.Proofs.Paragraph.Nesting
import Galley.Proofs.Paragraph.Pieces

/-
The parser keeps all text.

Each run of a text is handed out as it is measured under the style of the innermost open element,
but for white space where nothing has started yet: there is no tag and no other text between it and
the start of the text or the latest end of a paragraph.

`Reading` is what one piece of the text is read as, and `TakesEach` says that the parser, one piece
after the other, makes just these of a text.  That the parser passes over white space is one flag of
it, which `Idle` gives by what was read, and its style is given by what it has handed out
(`styleAfter`).
-/

namespace Galley
namespace Paragraph

open Font Markup Style

variable {α : Type}

/-! ## What text is read as -/

/-- A run as it stands under a style.  Where lines break after any character, each is a place where
a line may end. -/
def Setup.shown [Scalar α] (setup : Setup α) (style : StyleState α) (content : String) :
    Instruction α :=
  match setup.mode with
  | .word => .ofText content style setup.fonts
  | .character => (Instruction.ofText content style setup.fonts).breakable

def Kind.isParagraphEnd : Kind α → Bool
  | .paragraphEnd => true
  | _ => false

/-- A piece of the text and what is handed out for it. -/
structure Reading (α : Type) where
  piece : Piece
  items : List (Instruction α)

namespace Reading

def endsParagraph (r : Reading α) : Bool := r.items.any fun i => i.kind.isParagraphEnd

/-- An opening tag, void or not, or text that is not white space. -/
def starts (r : Reading α) : Bool :=
  match r.piece with
  | .opening .. => true
  | _ => r.items.any fun i => i.text?.isSome && !i.discardable

end Reading

/-- Nothing has started since the start of the text or the latest end of a paragraph. -/
def Idle (readings : List (Reading α)) : Prop :=
  ∀ r ∈ readings.rtakeWhile fun r => !r.endsParagraph, r.starts = false

/-- An element that starts is innermost, and one that ends no longer is. -/
def styleStep (styles : List (StyleState α)) (i : Instruction α) : List (StyleState α) :=
  if i.kind.isOpening then i.state :: styles
  else if i.kind.isLeaf then styles
  else styles.tail

/-- The styles of the elements that are open behind these, innermost first. -/
def stylesAfter (root : StyleState α) (items : List (Instruction α)) : List (StyleState α) :=
  items.foldl styleStep [root]

/-- The style that text stands under behind these. -/
def styleAfter (root : StyleState α) (items : List (Instruction α)) : StyleState α :=
  (stylesAfter root items).headD root

/-- What a piece is read as under this style, where nothing has started yet or something has. -/
def Reading.Keeps [Scalar α] (setup : Setup α) (style : StyleState α) (idle : Prop)
    (r : Reading α) : Prop :=
  match r.piece with
  | .run content =>
    (idle ∧ (setup.shown style content).discardable = true → r.items = []) ∧
      (¬ (idle ∧ (setup.shown style content).discardable = true) →
        r.items = [setup.shown style content])
  | _ => ∀ i ∈ r.items, i.text? = none

theorem idle_concat (readings : List (Reading α)) (r : Reading α) :
    Idle (readings ++ [r]) ↔ r.endsParagraph = true ∨ Idle readings ∧ r.starts = false := by
  unfold Idle
  cases hr : r.endsParagraph with
  | true =>
    rw [List.rtakeWhile_concat_neg _ _ _ (by simp [hr])]
    simp
  | false =>
    rw [List.rtakeWhile_concat_pos _ _ _ (by simp [hr])]
    simp [or_imp, forall_and]

theorem idle_nil : Idle ([] : List (Reading α)) := by simp [Idle]

theorem stylesAfter_append (root : StyleState α) (items more : List (Instruction α)) :
    stylesAfter root (items ++ more) = more.foldl styleStep (stylesAfter root items) :=
  List.foldl_append

theorem styleStep_opening {i : Instruction α} (h : i.kind.isOpening = true)
    (styles : List (StyleState α)) : styleStep styles i = i.state :: styles := if_pos h

theorem styleStep_leaf {i : Instruction α} (h : i.kind.isLeaf = true)
    (styles : List (StyleState α)) : styleStep styles i = styles := by
  unfold styleStep
  rw [isOpening_of_isLeaf h, if_neg (by decide), if_pos h]

theorem styleStep_closing {i : Instruction α} {tag : String} {scope : Scope}
    (h : i.kind = Parser.closingKind tag scope) (styles : List (StyleState α)) :
    styleStep styles i = styles.tail := by
  unfold styleStep
  rw [h]
  cases scope <;> rfl

theorem breakable_of_breakOpportunity {i : Instruction α} (h : i.breakOpportunity = true) :
    i.breakable = i := by
  unfold Instruction.breakable
  rw [← h]

variable [Scalar α]

theorem shown_eq (p : Parser α) (content : String) :
    p.setup.shown p.state content = p.runInstruction content := by
  have hspace : (Instruction.ofText content p.state p.setup.fonts).discardable = true →
      (Instruction.ofText content p.state p.setup.fonts).breakOpportunity = true :=
    Instruction.Made.breakOpportunity ⟨.text content, p.state, p.setup.fonts, Or.inl rfl⟩
  unfold Setup.shown Parser.runInstruction
  cases p.setup.mode with
  | word => rfl
  | character =>
    dsimp only
    cases hd : (Instruction.ofText content p.state p.setup.fonts).discardable with
    | false => rfl
    | true => exact breakable_of_breakOpportunity (hspace hd)

/-! ## What is no text -/

theorem text?_ofKind_break {kind : Kind α} (h : kind.isBreak = true) (style : StyleState α)
    (fonts : FontService α) : (Instruction.ofKind kind style fonts).text? = none := by
  cases kind with
  | lineBreak => rfl
  | pageBreak => rfl
  | _ => cases h

theorem text?_ofKind_opening {tag : String} {kind : Kind α} {scope : Scope}
    (h : OpensAs tag kind scope) (style : StyleState α) (fonts : FontService α) :
    (Instruction.ofKind kind style fonts).text? = none := by
  cases h <;> rfl

theorem text?_ofKind_closing (tag : String) (scope : Scope) (style : StyleState α)
    (fonts : FontService α) :
    (Instruction.ofKind (Parser.closingKind tag scope) style fonts).text? = none := by
  cases scope <;> rfl

/-! ## Reading by reading -/

/-- `TakesEach p readings q`: each of these is what the parser hands out for its piece, one after
the other, and it goes on as `q`. -/
inductive TakesEach (p : Parser α) : List (Reading α) → Parser α → Prop where
  | start : TakesEach p [] p
  | next {readings : List (Reading α)} {q r : Parser α} {piece : Piece}
      {out : List (Instruction α)} (h : TakesEach p readings q)
      (hq : q.take piece = .ok (out, r)) : TakesEach p (readings ++ [⟨piece, out⟩]) r

theorem TakesEach.of_takeAll {p q r : Parser α} {readings : List (Reading α)}
    {pieces : List Piece} {out : List (Instruction α)} (h : TakesEach r readings p)
    (ht : p.takeAll pieces = .ok (out, q)) :
    ∃ more, TakesEach r (readings ++ more) q ∧ more.map Reading.piece = pieces ∧
      more.flatMap Reading.items = out := by
  induction pieces generalizing p readings out with
  | nil =>
    cases ht
    exact ⟨[], by rwa [List.append_nil], rfl, rfl⟩
  | cons piece pieces ih =>
    obtain ⟨first, t, rest, htake, hrest, rfl⟩ := Parser.takeAll_cons_ok ht
    obtain ⟨more, hmore, hpieces, hitems⟩ := ih (h.next htake) hrest
    rw [List.append_assoc] at hmore
    exact ⟨⟨piece, first⟩ :: more, hmore, by rw [← hpieces]; rfl, by rw [← hitems]; rfl⟩

/-- What the parser keeps to between two pieces. -/
structure Settled (setup : Setup α) (root : StyleState α) (readings : List (Reading α))
    (p : Parser α) : Prop where
  setup : p.setup = setup
  idle : p.betweenParagraphs = true ↔ Idle readings
  styles : stylesAfter root (readings.flatMap Reading.items) =
    p.state :: p.openTags.map OpenTag.enclosing

omit [Scalar α] in
theorem settled_ofText (text : String) (root : StyleState α) (setup : Setup α) :
    Settled setup root [] (.ofText text root setup) where
  setup := rfl
  idle := ⟨fun _ => idle_nil, fun _ => rfl⟩
  styles := rfl

namespace Settled

variable {setup : Setup α} {root : StyleState α} {readings : List (Reading α)} {p q : Parser α}
  {piece : Piece} {out : List (Instruction α)}

omit [Scalar α] in
theorem styleAfter_eq (h : Settled setup root readings p) :
    styleAfter root (readings.flatMap Reading.items) = p.state := by
  unfold styleAfter
  rw [h.styles]
  rfl

theorem keeps (h : Settled setup root readings p) (ht : p.Takes piece out q) :
    Reading.Keeps setup (styleAfter root (readings.flatMap Reading.items)) (Idle readings)
      ⟨piece, out⟩ := by
  rw [h.styleAfter_eq, ← h.setup]
  cases ht with
  | @skipped content hb hd =>
    rw [← shown_eq] at hd
    exact ⟨fun _ => rfl, fun hkeep => absurd ⟨h.idle.1 hb, hd⟩ hkeep⟩
  | @run content lineOpen hkeep =>
    rw [← shown_eq] at hkeep ⊢
    refine ⟨fun hskip => ?_, fun _ => rfl⟩
    rw [hkeep (h.idle.2 hskip.1)] at hskip
    cases hskip.2
  | void hv hk =>
    intro i hi
    rw [List.mem_singleton.1 hi]
    exact text?_ofKind_break hk _ _
  | opening hv hk hbefore =>
    intro i hi
    rcases List.mem_append.1 hi with hi | hi
    · rcases hbefore with rfl | rfl
      · cases hi
      · rw [List.mem_singleton.1 hi]
        rfl
    · rw [List.mem_singleton.1 hi]
      exact text?_ofKind_opening hk _ _
  | passed hv =>
    intro i hi
    cases hi
  | closing hv ho =>
    intro i hi
    rw [List.mem_singleton.1 hi]
    exact text?_ofKind_closing _ _ _ _

/-- The flag goes up at the end of a paragraph and down where something starts. -/
theorem idle_step (h : Settled setup root readings p) (ht : p.Takes piece out q) :
    q.betweenParagraphs = true ↔ Idle (readings ++ [⟨piece, out⟩]) := by
  rw [idle_concat, ← h.idle]
  cases ht with
  | skipped hb hd => simp [Reading.endsParagraph, Reading.starts]
  | @run content lineOpen hkeep =>
    obtain ⟨⟨shown, hkind⟩, -⟩ := Parser.runInstruction_text p content
    have hends : (p.runInstruction content).kind.isParagraphEnd = false := by rw [hkind]; rfl
    have htext : (p.runInstruction content).text?.isSome = true := by
      unfold Instruction.text?
      rw [hkind]
      rfl
    cases hb : p.betweenParagraphs with
    | false => simp [Reading.endsParagraph, hends]
    | true => simp [Reading.endsParagraph, Reading.starts, hends, htext, hkeep hb]
  | @void tag options position kind lineOpen hv hk =>
    have hends : (p.instruction kind).kind.isParagraphEnd = false := by
      cases kind with
      | lineBreak => rfl
      | pageBreak => rfl
      | _ => cases hk
    simp [Reading.endsParagraph, Reading.starts, hends]
  | @opening tag options position kind scope child before lineOpen hv hk hbefore =>
    have hlast : (Instruction.ofKind kind child p.setup.fonts).kind.isParagraphEnd = false := by
      cases hk <;> rfl
    have hfront : before.any (fun i => i.kind.isParagraphEnd) = false := by
      rcases hbefore with rfl | rfl <;> rfl
    simp [Reading.endsParagraph, Reading.starts, hlast, hfront]
  | passed hv => simp [Reading.endsParagraph, Reading.starts]
  | @closing opened openTags position lineOpen hv ho =>
    have hends : (p.instruction (Parser.closingKind opened.tag opened.scope)).kind.isParagraphEnd =
        decide (opened.scope = .block) := by
      cases opened.scope <;> rfl
    have htext : (p.instruction (Parser.closingKind opened.tag opened.scope)).text? = none :=
      text?_ofKind_closing _ _ _ _
    simp [Reading.endsParagraph, Reading.starts, hends, htext, or_comm]

theorem styles_step (h : Settled setup root readings p) (ht : p.Takes piece out q) :
    stylesAfter root ((readings ++ [({ piece, items := out } : Reading α)]).flatMap Reading.items) =
      q.state :: q.openTags.map OpenTag.enclosing := by
  rw [List.flatMap_append, List.flatMap_singleton, stylesAfter_append, h.styles]
  show out.foldl styleStep _ = _
  cases ht with
  | skipped hb hd => rfl
  | @run content lineOpen hkeep =>
    obtain ⟨⟨shown, hkind⟩, -⟩ := Parser.runInstruction_text p content
    exact styleStep_leaf (i := p.runInstruction content) (by rw [hkind]; rfl) _
  | @void tag options position kind lineOpen hv hk =>
    refine styleStep_leaf (i := p.instruction kind) ?_ _
    cases kind with
    | lineBreak => rfl
    | pageBreak => rfl
    | _ => cases hk
  | @opening tag options position kind scope child before lineOpen hv hk hbefore =>
    have hopening : styleStep (p.state :: p.openTags.map OpenTag.enclosing)
        (.ofKind kind child p.setup.fonts) =
          child :: p.state :: p.openTags.map OpenTag.enclosing := by
      rw [styleStep_opening, ofKind_state]
      rw [ofKind_opening hk]
      exact isOpening_of_opensAs hk
    have hfront : before.foldl styleStep (p.state :: p.openTags.map OpenTag.enclosing) =
        p.state :: p.openTags.map OpenTag.enclosing := by
      rcases hbefore with rfl | rfl
      · rfl
      · exact styleStep_leaf (i := p.instruction .lineBreak) rfl _
    rw [List.foldl_append, hfront]
    exact hopening
  | passed hv => rfl
  | @closing opened openTags position lineOpen hv ho =>
    rw [ho]
    exact styleStep_closing (ofKind_closing _ _ _ _) _

theorem step (h : Settled setup root readings p) (ht : p.Takes piece out q) :
    Settled setup root (readings ++ [⟨piece, out⟩]) q where
  setup := by
    rw [← h.setup]
    cases ht <;> rfl
  idle := h.idle_step ht
  styles := h.styles_step ht

end Settled

theorem kept_of_takesEach {setup : Setup α} {root : StyleState α} {readings : List (Reading α)}
    {p q : Parser α} (hquiet : p.Quiet) (hp : Settled setup root [] p)
    (h : TakesEach p readings q) :
    q.Quiet ∧ Settled setup root readings q ∧ Everywhere (fun front r _ =>
      r.Keeps setup (styleAfter root (front.flatMap Reading.items)) (Idle front)) readings := by
  induction h with
  | start => exact ⟨hquiet, hp, .nil⟩
  | next _ hq ih =>
    obtain ⟨hquiet, hsettled, hkept⟩ := ih
    have htakes := Parser.Takes.of_take hquiet.pushed hq
    exact ⟨(htakes.quiet hquiet).1, hsettled.step htakes,
      Everywhere.concat_iff.2 ⟨hkept, hsettled.keeps htakes⟩⟩

/-- A text that is read to its end is read piece by piece: each reading is what the parser hands out
for its piece, and together they are all that is handed out.  A run is handed out as it is shown
under the style of the innermost open element, but for white space where nothing has started; a tag
hands out no text. -/
theorem text_is_kept {text : String} {root : StyleState α} {setup : Setup α}
    {out : List (Handed α)} {q : Parser α}
    (hread : (Parser.ofText text root setup).handouts = (.ok out, q)) :
    ∃ tokens readings last, Scans (.ofText text) tokens ∧
      readings.map Reading.piece = tokens.flatMap (piecesOf setup.mode) ∧
      TakesEach (.ofText text root setup) readings last ∧
      readings.flatMap Reading.items = out.map Handed.item ∧
      Everywhere (fun front r _ =>
        r.Keeps setup (styleAfter root (front.flatMap Reading.items)) (Idle front)) readings := by
  have hquiet : (Parser.ofText text root setup).Quiet := ⟨rfl, rfl⟩
  have hstream := Parser.stream_eq_ok_iff.2 ⟨out, q, hread, rfl⟩
  obtain ⟨tokens, htokens⟩ := Parser.scans_of_stream (p := .ofText text root setup) hquiet hstream
  rw [Parser.stream_ofText htokens] at hstream
  unfold Parser.follow at hstream
  split at hstream
  · cases hstream
  · next items last htake =>
    obtain ⟨readings, hreadings, hpieces, hitems⟩ := TakesEach.of_takeAll .start htake
    rw [List.nil_append] at hreadings
    obtain ⟨rest, hrest, hall⟩ := exists_of_map_ok hstream
    obtain ⟨_, -, rfl⟩ := exists_of_map_ok hrest
    rw [List.append_nil] at hall
    obtain ⟨-, -, hkept⟩ := kept_of_takesEach hquiet (settled_ofText text root setup) hreadings
    exact ⟨tokens, readings, last, htokens, hpieces, hreadings, hitems.trans hall, hkept⟩

def Sample.anywhere : Setup Rat := { Sample.setup with mode := .character }

/-- White space is kept behind a tag, also at the start of a block, and not behind the block. -/
theorem text_is_kept_around_block :
    ∃ out q, (Parser.ofText "<center> xy</center> z" Sample.state Sample.anywhere).handouts =
        (.ok out, q) ∧
      out.map (fun j => j.item.kind) =
        [.paragraphStart 0, .text " ", .text "x", .text "y", .paragraphEnd, .text "z"] ∧
      ∃ tokens readings last, Scans (.ofText "<center> xy</center> z") tokens ∧
        readings.map Reading.piece = tokens.flatMap (piecesOf .character) ∧
        TakesEach (.ofText "<center> xy</center> z" Sample.state Sample.anywhere) readings last ∧
        readings.flatMap Reading.items = out.map Handed.item ∧
        Everywhere (fun front r _ => r.Keeps Sample.anywhere
          (styleAfter Sample.state (front.flatMap Reading.items)) (Idle front)) readings := by
  have hkinds : ((Parser.ofText "<center> xy</center> z" Sample.state
      Sample.anywhere).handouts.1.map fun out => out.map fun j => j.item.kind) =
        .ok [.paragraphStart 0, .text " ", .text "x", .text "y", .paragraphEnd, .text "z"] := by
    decide +kernel
  obtain ⟨out, hout, hlist⟩ := exists_of_map_ok hkinds
  have hread : (Parser.ofText "<center> xy</center> z" Sample.state Sample.anywhere).handouts =
      (.ok out, (Parser.ofText "<center> xy</center> z" Sample.state Sample.anywhere).handouts.2) :=
    Prod.ext hout rfl
  exact ⟨out, _, hread, hlist, text_is_kept hread⟩

end Paragraph
end Galley
