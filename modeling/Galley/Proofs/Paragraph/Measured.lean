import Galley.Proofs.Paragraph.Failure
import Galley.Proofs.Paragraph.Nesting
import Galley.Proofs.Options

/-
What stands on the lines of a text is measured by its fonts.

Every instruction of a text is measured under the style that it carries, each style has a size
above zero, and no two styles of a text share a serial.  All three are kept by each call of the
parser (`Styles.next`), and none is lost on the way to the lines that formatters hand out
(`Sized.of_laidOut`).
-/

namespace Galley
namespace Paragraph

open Font Style

variable {α : Type} [Scalar α]

/-- Measured by these fonts under its own style, and perhaps marked as a place where a line may
end. -/
def Instruction.MeasuredBy (fonts : FontService α) (i : Instruction α) : Prop :=
  ∃ kind, i = ofKind kind i.state fonts ∨ i = (ofKind kind i.state fonts).breakable

theorem measured_ofKind (kind : Kind α) (state : StyleState α) (fonts : FontService α) :
    (Instruction.ofKind kind state fonts).MeasuredBy fonts := by
  refine ⟨kind, Or.inl ?_⟩
  rw [ofKind_state]

/-! ## The parser measures -/

namespace Parser

variable {p q : Parser α} {i : Instruction α}

theorem measured_runInstruction (p : Parser α) (run : String) :
    (p.runInstruction run).MeasuredBy p.setup.fonts := by
  unfold runInstruction
  dsimp only
  split
  · refine ⟨.text run, Or.inr ?_⟩
    rfl
  · refine ⟨.text run, Or.inl ?_⟩
    rfl

theorem measured_enter (p : Parser α) (tag : String) (position : Nat) (kind : Kind α)
    (scope : Scope) (child : StyleState α) :
    (p.enter tag position kind scope child).1.MeasuredBy p.setup.fonts := by
  unfold enter
  dsimp only
  split
  · exact measured_ofKind .lineBreak p.state p.setup.fonts
  · exact measured_ofKind kind child p.setup.fonts

theorem measured_openTag {tag : String} {raw : Markup.Attributes} {position : Nat}
    (h : p.openTag tag raw position = (.ok i, q)) : i.MeasuredBy p.setup.fonts := by
  have hscope {style : TagStyle α} {options : Markup.Attributes}
      (h : p.openScope tag style options position = (.ok i, q)) : i.MeasuredBy p.setup.fonts := by
    unfold openScope at h
    split at h
    · cases h
    · split at h
      · cases h
      · cases h
        exact measured_enter { p with nextSerial := p.nextSerial + 1 } _ _ _ _ _
  unfold openTag at h
  split at h
  · cases h
  · split at h
    · cases h
      exact measured_ofKind _ _ _
    · cases h
      exact measured_ofKind _ _ _
    · exact hscope h
    · exact hscope h

theorem measured_closeTag {tag : String} {position : Nat}
    (h : p.closeTag tag position = (.ok (some i), q)) : i.MeasuredBy p.setup.fonts := by
  unfold closeTag at h
  split at h
  · cases h
  · split at h
    · cases h
    · split at h
      · cases h
        exact measured_ofKind _ _ _
      · cases h

theorem measured_parseNext (h : p.parseNext = (.ok (some i), q)) :
    i.MeasuredBy p.setup.fonts := by
  revert h
  fun_induction parseNext p with
  | case1 p run runs hr _ _ _ ih => exact ih
  | case2 p run runs hr j _ =>
    intro h
    rw [Prod.mk.injEq, Except.ok.injEq, Option.some.injEq] at h
    obtain ⟨rfl, rfl⟩ := h
    exact measured_runInstruction p run
  | case3 => simp
  | case4 p hr scanner hs =>
    intro h
    unfold atEnd at h
    split at h <;> cases h
  | case5 p hr runs scanner hs _ ih => exact ih
  | case6 p hr tag options scanner hs j r hq =>
    intro h
    cases j with
    | error e => cases h
    | ok j =>
      cases h
      exact measured_openTag (p := { p with scanner, betweenParagraphs := false }) hq
  | case7 p hr tag scanner hs r hc _ ih =>
    rw [closeTag_nothing hc] at ih ⊢
    exact ih
  | case8 p hr tag scanner hs j r hc =>
    intro h
    cases h
    exact measured_closeTag (p := { p with scanner }) hc
  | case9 => simp

theorem measured_next (hp : ∀ j ∈ p.pushed, j.MeasuredBy p.setup.fonts)
    (h : p.next = (.ok (some i), q)) : i.MeasuredBy p.setup.fonts := by
  unfold next at h
  split at h
  · next j rest hpushed =>
    cases h
    exact hp i (by rw [hpushed]; exact List.mem_cons_self)
  · split at h
    · next j r hr =>
      cases h
      exact measured_parseNext hr
    · next r hne hr =>
      cases h
      exact absurd rfl (hne i)

end Parser

/-! ## Styles are told apart by their serials -/

/-- The styles `seen` have sizes above zero and serials of their own, below `bound`. -/
structure Told (seen : StyleState α → Prop) (bound : Nat) : Prop where
  unique : ∀ s t, seen s → seen t → s.serial = t.serial → s = t
  positive : ∀ s, seen s → ¬ s.size ≤ 0
  below : ∀ s, seen s → s.serial < bound

/-- A derived style has a size above zero. -/
theorem size_derive {s child : StyleState α} {serial : Nat} {delta : TagStyle α}
    {fonts : FontService α} {registry : Registry α}
    (h : s.derive serial delta fonts registry = .ok child) : ¬ child.size ≤ 0 := by
  unfold StyleState.derive at h
  dsimp only at h
  split at h
  all_goals
    obtain ⟨_, -, h⟩ := exists_of_bind_ok h
    obtain ⟨size, hsize, h⟩ := exists_of_bind_ok h
    split at h
    all_goals
      obtain ⟨_, -, h⟩ := exists_of_bind_ok h
      cases h
      obtain ⟨rfl, hpos⟩ := requirePositive_ok hsize
      exact hpos

theorem Told.enter {seen : StyleState α → Prop} {bound : Nat} {child : StyleState α}
    (h : Told seen bound) (hserial : child.serial = bound) (hsize : ¬ child.size ≤ 0) :
    Told (fun s => seen s ∨ s = child) (bound + 1) where
  unique := by
    rintro s t (hs | rfl) (ht | rfl) heq
    · exact h.unique s t hs ht heq
    · have := h.below s hs
      omega
    · have := h.below t ht
      omega
    · rfl
  positive := by
    rintro s (hs | rfl)
    · exact h.positive s hs
    · exact hsize
  below := by
    rintro s (hs | rfl)
    · exact Nat.lt_succ_of_lt (h.below s hs)
    · omega

/-- All styles that a parser stands at are among those seen. -/
structure Styles (seen : StyleState α → Prop) (s : Standing α) : Prop where
  told : Told seen s.nextSerial
  state : seen s.state
  enclosing : ∀ opened ∈ s.openTags, seen opened.enclosing
  pushed : ∀ i ∈ s.pushed, seen i.state

namespace Styles

variable {seen : StyleState α → Prop} {s t : Standing α} {i : Instruction α} {setup : Setup α}

theorem note (h : Styles seen s) (i : Instruction α) : Styles seen (s.note i) where
  told := by
    rw [Standing.note_nextSerial]
    exact h.told
  state := by
    rw [Standing.note_state]
    exact h.state
  enclosing := by
    rw [Standing.note_openTags]
    exact h.enclosing
  pushed := by
    rw [Standing.note_pushed]
    exact h.pushed

theorem enter (h : Styles seen s) (opened : OpenTag α) {child : StyleState α}
    (hopened : opened.enclosing = s.state) (hserial : child.serial = s.nextSerial)
    (hsize : ¬ child.size ≤ 0) :
    Styles (fun u => seen u ∨ u = child) (s.enter opened child) where
  told := h.told.enter hserial hsize
  state := Or.inr rfl
  enclosing := by
    refine List.forall_mem_cons.2 ⟨Or.inl (by rw [hopened]; exact h.state), ?_⟩
    exact fun o ho => Or.inl (h.enclosing o ho)
  pushed := fun i hi => Or.inl (h.pushed i hi)

/-- A call may enter one style more. -/
theorem next (h : Styles seen s) (hout : Handout setup s i t) :
    ∃ more, (∀ u, seen u → more u) ∧ Styles more t ∧ more i.state := by
  cases hout with
  | waiting hp =>
    have hall := h.pushed
    rw [hp] at hall
    obtain ⟨hi, hrest⟩ := List.forall_mem_cons.1 hall
    exact ⟨seen, fun _ hu => hu, ⟨h.told, h.state, h.enclosing, hrest⟩, hi⟩
  | text hp hk hs => exact ⟨seen, fun _ hu => hu, h.note i, by rw [hs]; exact h.state⟩
  | void hp hk => exact ⟨seen, fun _ hu => hu, h.note _, by rw [ofKind_state]; exact h.state⟩
  | @opening tag kind scope position style child hp hk hd hl =>
    have hentered := h.enter { tag, scope, enclosing := s.state, position } rfl
      (derive_child hd).1 (size_derive hd)
    exact ⟨_, fun _ hu => Or.inl hu, hentered.note _, by rw [ofKind_state]; exact hentered.state⟩
  | @openingInLine tag kind position style child hp hk hd hl =>
    have hentered := h.enter { tag, scope := .block, enclosing := s.state, position } rfl
      (derive_child hd).1 (size_derive hd)
    refine ⟨_, fun _ hu => Or.inl hu, ⟨hentered.told, hentered.state, hentered.enclosing, ?_⟩, ?_⟩
    · intro j hj
      rw [List.mem_singleton.1 hj, ofKind_state]
      exact hentered.state
    · rw [ofKind_state]
      exact Or.inl h.state
  | @closing opened openTags hp ho =>
    have hall := h.enclosing
    rw [ho] at hall
    obtain ⟨hfirst, hrest⟩ := List.forall_mem_cons.1 hall
    have hleft : Styles seen (s.leave opened openTags) := ⟨h.told, hfirst, hrest, h.pushed⟩
    exact ⟨seen, fun _ hu => hu, hleft.note _, by rw [ofKind_state]; exact h.state⟩

end Styles

/-! ## All that is handed out -/

theorem measured_pushed {s t : Standing α} {i : Instruction α} {setup : Setup α}
    (hs : ∀ j ∈ s.pushed, j.MeasuredBy setup.fonts) (hout : Handout setup s i t) :
    ∀ j ∈ t.pushed, j.MeasuredBy setup.fonts := by
  cases hout with
  | waiting hp =>
    rw [hp] at hs
    exact (List.forall_mem_cons.1 hs).2
  | text _ _ _ | void _ _ | opening _ _ _ _ | closing _ _ =>
    rw [Standing.note_pushed]
    exact hs
  | openingInLine hp hk hd hl =>
    intro j hj
    rw [List.mem_singleton.1 hj]
    exact measured_ofKind _ _ _

theorem measured_of_reads {p q : Parser α} {out : List (Handed α)} (h : Reads p out q)
    (hpushed : p.pushed = []) :
    q.setup = p.setup ∧ (∀ i ∈ q.pushed, i.MeasuredBy p.setup.fonts) ∧
      ∀ j ∈ out, j.item.MeasuredBy p.setup.fonts := by
  induction h with
  | start =>
    refine ⟨rfl, ?_, by simp⟩
    rw [hpushed]
    simp
  | @next out q r i h hn ih =>
    obtain ⟨hsetup, hwaiting, hout⟩ := ih
    obtain ⟨hsame, hhandout⟩ := Parser.handout_of_next hn
    rw [← hsetup] at hwaiting hout ⊢
    refine ⟨hsame, measured_pushed hwaiting hhandout, fun j hj => ?_⟩
    rcases List.mem_append.1 hj with hj | hj
    · exact hout j hj
    · rw [List.mem_singleton.1 hj]
      exact Parser.measured_next hwaiting hn

/-- Measured under a style that is among those seen. -/
def SeenBy (fonts : FontService α) (seen : StyleState α → Prop) (i : Instruction α) : Prop :=
  i.MeasuredBy fonts ∧ seen i.state

theorem seen_of_reads {p q : Parser α} {out : List (Handed α)} (h : Reads p out q)
    (hpushed : p.pushed = []) (hopen : p.openTags = []) (hserial : p.state.serial < p.nextSerial)
    (hsize : ¬ p.state.size ≤ 0) :
    ∃ seen, Styles seen q.standing ∧ ∀ j ∈ out, SeenBy p.setup.fonts seen j.item := by
  induction h with
  | start =>
    have htold : Told (fun s => s = p.state) p.nextSerial :=
      ⟨fun s t hs ht _ => by rw [hs, ht], fun s hs => by rw [hs]; exact hsize,
        fun s hs => by rw [hs]; exact hserial⟩
    refine ⟨_, ⟨htold, rfl, ?_, ?_⟩, by simp⟩
    · show ∀ opened ∈ p.openTags, _
      rw [hopen]
      simp
    · show ∀ i ∈ p.pushed, _
      rw [hpushed]
      simp
  | @next out q r i h hn ih =>
    obtain ⟨seen, hstyles, hout⟩ := ih
    obtain ⟨hsame, hhandout⟩ := Parser.handout_of_next hn
    obtain ⟨more, hmore, hnext, hi⟩ := hstyles.next hhandout
    have hmeasured := (measured_of_reads (h.next hn) hpushed).2.2
    refine ⟨more, hnext, fun j hj => ⟨hmeasured j hj, ?_⟩⟩
    rcases List.mem_append.1 hj with hj | hj
    · exact hmore _ (hout j hj).2
    · rw [List.mem_singleton.1 hj]
      exact hi

/-! ## Lines -/

/-- What drawing asks of a line: all on it is measured by the fonts at a size above zero, and what
has the same serial has the same style. -/
structure Sized (fonts : FontService α) (line : Line α) : Prop where
  measured : ∀ i ∈ line.instructions, i.MeasuredBy fonts
  positive : ∀ i ∈ line.instructions, ¬ i.state.size ≤ 0
  serials : Instruction.ToldApart line.instructions

theorem Sized.of_seen {fonts : FontService α} {seen : StyleState α → Prop} {bound : Nat}
    (h : Told seen bound) {line : Line α}
    (hline : ∀ i ∈ line.instructions, SeenBy fonts seen i) : Sized fonts line where
  measured := fun i hi => (hline i hi).1
  positive := fun i hi => h.positive _ (hline i hi).2
  serials := fun i hi j hj => h.unique _ _ (hline i hi).2 (hline j hj).2

/-! ## Formatters -/

/-- What a formatter has come to after calls for batches, for boxes of any size, and calls that ask
whether anything is left. -/
inductive Reaches (f : Formatter α) : Formatter α → Prop where
  | start : Reaches f f
  | fill {g k : Formatter α} {width height : α} {batch : List (Line α)} (h : Reaches f g)
      (hfill : g.fill width height = (.ok batch, k)) : Reaches f k
  | done {g k : Formatter α} {r : Except Error Bool} (h : Reaches f g) (hdone : g.done = (r, k)) :
      Reaches f k

/-- A line of a text that is read to its end, as formatters hand it out: in a batch for some box, or
with all that is left. -/
def LaidOut (fonts : FontService α) (line : Line α) : Prop :=
  ∃ (text : String) (options : Options α) (registry : Registry α) (f g : Formatter α)
    (lines : List (Line α)) (width : α),
    Formatter.ofText text options fonts registry = .ok f ∧
    (∃ column all, (f.lines column).1 = .ok all) ∧ Reaches f g ∧ line ∈ lines ∧
    ((g.lines width).1 = .ok lines ∨ ∃ height k, g.fill width height = (.ok lines, k))

theorem LaidOut.of_layout {text : String} {width : α} {options : Options α}
    {fonts : FontService α} {registry : Registry α} {lines : List (Line α)}
    (h : layout text width options fonts registry = .ok lines) :
    ∀ line ∈ lines, LaidOut fonts line := by
  intro line hline
  obtain ⟨f, hf, hlines⟩ := exists_of_bind_ok h
  exact ⟨text, options, registry, f, f, lines, width, hf, ⟨width, lines, hlines⟩, .start, hline,
    Or.inl hlines⟩

section

variable {f g : Formatter α} {P : Instruction α → Prop}

theorem Reaches.feeds (h : Reaches f g) (hf : f.typesetter.Feeds P) : g.typesetter.Feeds P := by
  induction h with
  | start => exact hf
  | @fill g k width height batch _ hfill ih =>
    obtain ⟨_, _, c, hfilled, hc, -⟩ := ih.fill width height g.options.spacing
    unfold Formatter.fill at hfill
    rw [hfilled] at hfill
    cases hfill
    exact hc
  | @done g k r _ hdone ih =>
    obtain ⟨_, c, hasked, hc, -⟩ := ih.asked 0
    unfold Formatter.done at hdone
    rw [hasked] at hdone
    cases hdone
    exact hc

/-- A formatter that hands out all lines of a text has read the text to its end. -/
theorem exists_read {text : String} {options : Options α} {fonts : FontService α}
    {registry : Registry α} {width : α} {lines : List (Line α)}
    (hf : Formatter.ofText text options fonts registry = .ok f)
    (hlines : (f.lines width).1 = .ok lines) :
    ∃ (style : RootStyle α) (out : List (Handed α)) (q : Parser α), ¬ style.size ≤ 0 ∧
      (Parser.ofText text (.root fonts style)
        { fonts, registry, mode := options.mode }).handouts = (.ok out, q) ∧
      f.typesetter = .ofText text (.root fonts style) { fonts, registry, mode := options.mode }
        options.algorithm options.optimal (options.align = .justify) := by
  obtain ⟨_, hvalid, hf⟩ := exists_of_bind_ok hf
  obtain ⟨style, hstyle, hf⟩ := exists_of_bind_ok hf
  obtain ⟨drawing, -, hf⟩ := exists_of_bind_ok hf
  cases hf
  obtain ⟨out, hout⟩ := (Typesetter.lines_ok_iff text (.root fonts style)
    { fonts, registry, mode := options.mode } options.algorithm options.optimal
    (options.align = .justify) width).1 ⟨lines, hlines⟩
  obtain ⟨-, -, hsize, -, -⟩ := of_validate hvalid
  have hroot : ¬ style.size ≤ 0 := by
    obtain ⟨color, -, hstyle⟩ := exists_of_bind_ok hstyle
    cases hstyle
    exact (requirePositive_ok hsize).2
  exact ⟨style, out, _, hroot, Prod.ext hout rfl, rfl⟩

/-- A formatter whose text is read to its end hands out nothing but what is measured. -/
theorem exists_told {text : String} {options : Options α} {fonts : FontService α}
    {registry : Registry α} {width : α} {lines : List (Line α)}
    (hf : Formatter.ofText text options fonts registry = .ok f)
    (hlines : (f.lines width).1 = .ok lines) :
    ∃ seen bound, Told seen bound ∧ f.typesetter.Feeds (SeenBy fonts seen) := by
  obtain ⟨style, out, _, hroot, hread, htypesetter⟩ := exists_read hf hlines
  obtain ⟨q, hreads, -⟩ := reads_of_handouts hread
  obtain ⟨seen, hstyles, hseen⟩ := seen_of_reads hreads rfl rfl (Nat.lt_succ_self _) hroot
  refine ⟨seen, _, hstyles.told, ?_⟩
  rw [htypesetter]
  exact Typesetter.feeds_ofText hread options.algorithm options.optimal
    (options.align = .justify) hseen (fun i hi room => ⟨measured_ofKind _ _ _, hi.2⟩)

/-- All that formatters hand out is measured. -/
theorem Sized.of_laidOut {fonts : FontService α} {line : Line α} (h : LaidOut fonts line) :
    Sized fonts line := by
  obtain ⟨text, options, registry, f, g, lines, width, hf, ⟨column, all, hall⟩, hg, hline, hout⟩ := h
  obtain ⟨seen, bound, htold, hfeeds⟩ := exists_told hf hall
  have hg := hg.feeds hfeeds
  rcases hout with hlines | ⟨height, k, hfill⟩
  · obtain ⟨left, hleft, hP⟩ := hg.lines_ok width
    obtain rfl : lines = left := Except.ok.inj (hlines.symm.trans hleft)
    exact .of_seen htold (hP line hline)
  · obtain ⟨batch, _, c, hfilled, -, hP, -⟩ := hg.fill width height g.options.spacing
    unfold Formatter.fill at hfill
    rw [hfilled] at hfill
    cases hfill
    exact .of_seen htold (hP line hline)

end

end Paragraph
end Galley
