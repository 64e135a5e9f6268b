import Galley.Proofs.Paragraph.Appending

/-
What came last out of a text.

`Recent` ties a parser to the instruction that it handed out last: between paragraphs that is no
line or page break, and elsewhere it is not the end of a paragraph.  With white space behind a text
the parser therefore yields the same list, or the list with a space behind it, and the first only
if the list does not end with a break (`yields_append`).
-/

namespace Galley
namespace Paragraph

open Font Markup Style

variable {α : Type}

namespace Parser

/-- The style outside all open tags. -/
def outermost (p : Parser α) : StyleState α :=
  p.openTags.foldl (fun _ opened => opened.enclosing) p.state

variable [Scalar α]

/-- Neither white space nor the end of a paragraph. -/
def IsInner (i : Instruction α) : Prop := i.discardable = false ∧ i.kind ≠ .paragraphEnd

/-- `Recent root last p`: how `p` stands when it has handed out `last` just now. -/
structure Recent (root : StyleState α) (last : Option (Instruction α)) (p : Parser α) : Prop where
  runs : ∀ run ∈ p.runs, IsRun run
  outermost : p.outermost = root
  waiting : ∀ i ∈ p.pushed, p.betweenParagraphs = false ∧ IsInner i
  between : p.betweenParagraphs = true → ∀ i ∈ last, i.kind.isBreak = false
  inside : p.betweenParagraphs = false → ∃ i ∈ last, i.kind ≠ .paragraphEnd
  space : ∀ i ∈ last, i.discardable = true → i = p.space

section

variable {p q : Parser α} {tag : String} {position : Nat} {i : Instruction α}

theorem isInner_of_opensAs {kind : Kind α} {scope : Scope} (h : OpensAs tag kind scope)
    (state : StyleState α) (fonts : FontService α) : IsInner (.ofKind kind state fonts) := by
  cases h <;> exact ⟨rfl, by intro h; cases h⟩

/-- What an opening tag hands out and what stays. -/
structure Opens (p : Parser α) (i : Instruction α) (q : Parser α) : Prop where
  runs : q.runs = p.runs
  between : q.betweenParagraphs = p.betweenParagraphs
  outermost : q.outermost = p.outermost
  item : IsInner i
  waiting : ∀ j ∈ q.pushed, IsInner j

theorem opens_of_openScope {style : TagStyle α} {options : Attributes} (hp : p.pushed = [])
    (h : p.openScope tag style options position = (.ok i, q)) : Opens p i q := by
  unfold openScope at h
  split at h
  · cases h
  · next child _ =>
    split at h
    · cases h
    · next kind scope hk =>
      have hinner := isInner_of_opensAs (openingKind_opensAs hk) child p.setup.fonts
      have hnone (j : Instruction α) : j ∉ p.pushed := by simp [hp]
      unfold enter at h
      by_cases hline : (scope = .block && p.lineOpen) = true
      · rw [if_pos hline] at h
        cases h
        refine ⟨rfl, rfl, rfl, ⟨rfl, by intro h; cases h⟩, ?_⟩
        intro j hj
        rcases List.mem_cons.1 hj with rfl | hj
        · exact hinner
        · exact absurd hj (hnone j)
      · rw [if_neg hline] at h
        cases h
        exact ⟨rfl, rfl, rfl, hinner, fun j hj => absurd hj (hnone j)⟩

theorem opens_of_openTag {raw : Attributes} (hp : p.pushed = [])
    (h : p.openTag tag raw position = (.ok i, q)) : Opens p i q := by
  have hnone (j : Instruction α) : j ∉ p.pushed := by simp [hp]
  unfold openTag at h
  split at h
  · cases h
  · split at h
    · cases h
      exact ⟨rfl, rfl, rfl, ⟨rfl, by intro h; cases h⟩, fun j hj => absurd hj (hnone j)⟩
    · cases h
      exact ⟨rfl, rfl, rfl, ⟨rfl, by intro h; cases h⟩, fun j hj => absurd hj (hnone j)⟩
    · exact opens_of_openScope hp h
    · exact opens_of_openScope hp h

end

namespace Recent

variable {root : StyleState α} {last : Option (Instruction α)} {p q : Parser α}
  {i : Instruction α}

theorem dropRun (h : Recent root last p) {run : String} {runs : List String}
    (hr : p.runs = run :: runs) : Recent root last { p with runs } where
  runs := fun run' hrun' => h.runs run' (by rw [hr]; exact List.mem_cons_of_mem run hrun')
  outermost := h.outermost
  waiting := h.waiting
  between := h.between
  inside := h.inside
  space := h.space

theorem takeRun (h : Recent root last p) (hf : p.setup.fonts.KeepsSpaces) {run : String}
    {runs : List String} (hr : p.runs = run :: runs) (hp : p.pushed = []) :
    Recent root (some (p.runInstruction run)) { p with runs, betweenParagraphs := false } where
  runs := (h.dropRun hr).runs
  outermost := h.outermost
  waiting := by simp [hp]
  between := by simp
  inside := by
    obtain ⟨⟨content, hk⟩, -⟩ := runInstruction_text p run
    refine fun _ => ⟨_, rfl, ?_⟩
    rw [hk]
    intro h
    cases h
  space := by
    intro i hi hd
    obtain rfl : p.runInstruction run = i := Option.some.inj hi
    exact eq_space_of_discardable hf (h.runs run (by rw [hr]; exact List.mem_cons_self)) hd

theorem readText (h : Recent root last p) {t : Scanner} {runs : List String}
    (ht : p.scanner.next = (.ok (some (.text runs)), t)) :
    Recent root last { p with scanner := t, runs := splitRuns p.setup.mode runs } where
  runs := isRun_splitRuns p.setup.mode (Scanner.isRun_of_next ht)
  outermost := h.outermost
  waiting := h.waiting
  between := h.between
  inside := h.inside
  space := h.space

theorem readTag (h : Recent root last p) (t : Scanner) : Recent root last { p with scanner := t } :=
  ⟨h.runs, h.outermost, h.waiting, h.between, h.inside, h.space⟩

theorem of_opens (hopens : Opens p i q) (hr : p.runs = []) (hb : p.betweenParagraphs = false)
    (hroot : p.outermost = root) : Recent root (some i) q where
  runs := by simp [hopens.runs, hr]
  outermost := hopens.outermost.trans hroot
  waiting := fun j hj => ⟨hopens.between.trans hb, hopens.waiting j hj⟩
  between := by simp [hopens.between, hb]
  inside := fun _ => ⟨i, rfl, hopens.item.2⟩
  space := by
    intro j hj hd
    obtain rfl : i = j := Option.some.inj hj
    rw [hopens.item.1] at hd
    cases hd

theorem closeTag (h : Recent root last p) (hp : p.pushed = []) {tag : String} {position : Nat}
    (hc : p.closeTag tag position = (.ok (some i), q)) : Recent root (some i) q := by
  unfold Parser.closeTag at hc
  split at hc
  · cases hc
  · split at hc
    · cases hc
    · next opened openTags ho =>
      split at hc
      · cases hc
        refine ⟨h.runs, ?_, by simp [hp], ?_, ?_, ?_⟩
        · rw [← h.outermost]
          unfold Parser.outermost
          rw [ho]
          rfl
        · intro _ j hj
          cases hj
          cases opened.scope <;> rfl
        · -- inside a paragraph no block was closed
          intro hb
          rw [Bool.or_eq_false_iff, decide_eq_false_iff_not] at hb
          refine ⟨_, rfl, ?_⟩
          cases hscope : opened.scope with
          | block => exact absurd hscope hb.2
          | inline => intro hk; cases hk
          | link => intro hk; cases hk
        · intro j hj hd
          cases hj
          cases hscope : opened.scope <;> rw [hscope] at hd <;> cases hd
      · cases hc

theorem noteLine (h : Recent root last p) (i : Instruction α) :
    Recent root last (p.noteLine i) := by
  obtain ⟨lineOpen, heq⟩ := p.noteLine_eq i
  rw [heq]
  exact ⟨h.runs, h.outermost, h.waiting, h.between, h.inside, h.space⟩

theorem parseNext_some (h : Recent root last p) (hf : p.setup.fonts.KeepsSpaces)
    (hp : p.pushed = []) (hn : p.parseNext = (.ok (some i), q)) : Recent root (some i) q := by
  revert h hf hp hn
  fun_induction Parser.parseNext p
  case case1 p run runs hr _ hskip _ ih =>
    intro h hf hp hn
    exact ih (h.dropRun hr) hf hp hn
  case case2 p run runs hr _ hkeep =>
    intro h hf hp hn
    rw [Prod.mk.injEq, Except.ok.injEq, Option.some.injEq] at hn
    obtain ⟨rfl, rfl⟩ := hn
    exact h.takeRun hf hr hp
  case case3 => simp
  case case4 p hr scanner hs =>
    intro h hf hp hn
    unfold atEnd at hn
    split at hn <;> cases hn
  case case5 p hr runs scanner hs _ ih =>
    intro h hf hp hn
    exact ih (h.readText hs) hf hp hn
  case case6 p hr tag options scanner hs j r hq =>
    intro h hf hp hn
    cases j with
    | error e => cases hn
    | ok j =>
      cases hn
      exact of_opens (opens_of_openTag (p := { p with scanner, betweenParagraphs := false }) hp hq)
        hr rfl h.outermost
  case case7 p hr tag scanner hs r hc _ ih =>
    intro h hf hp hn
    obtain rfl := closeTag_nothing hc
    exact ih (h.readTag scanner) hf hp hn
  case case8 p hr tag scanner hs j r hc =>
    intro h hf hp hn
    cases hn
    exact (h.readTag scanner).closeTag hp hc
  case case9 => simp

theorem parseNext_none (h : Recent root last p) (hn : p.parseNext = (.ok none, q)) :
    Recent root last q := by
  revert h hn
  fun_induction Parser.parseNext p
  case case1 p run runs hr _ hskip _ ih => exact fun h => ih (h.dropRun hr)
  case case2 => simp
  case case3 => simp
  case case4 p hr scanner hs =>
    intro h hn
    unfold atEnd at hn
    split at hn
    · cases hn
      exact h.readTag scanner
    · cases hn
  case case5 p hr runs scanner hs _ ih => exact fun h => ih (h.readText hs)
  case case6 p hr tag options scanner hs j r hq =>
    intro h hn
    cases j <;> cases hn
  case case7 p hr tag scanner hs r hc _ ih =>
    obtain rfl := closeTag_nothing hc
    exact fun h => ih (h.readTag scanner)
  case case8 => simp
  case case9 => simp

theorem next_some (h : Recent root last p) (hf : p.setup.fonts.KeepsSpaces)
    (hn : p.next = (.ok (some i), q)) : Recent root (some i) q := by
  unfold Parser.next at hn
  split at hn
  · next j pushed hp =>
    cases hn
    obtain ⟨hb, hdiscard, hkind⟩ := h.waiting i (by rw [hp]; exact List.mem_cons_self)
    refine ⟨h.runs, h.outermost, ?_, by simp [hb], fun _ => ⟨i, rfl, hkind⟩, ?_⟩
    · intro j hj
      exact h.waiting j (by rw [hp]; exact List.mem_cons_of_mem i hj)
    · intro j hj hd
      cases hj
      rw [hdiscard] at hd
      cases hd
  · next hp =>
    split at hn
    · next j r hr =>
      cases hn
      exact (h.parseNext_some hf hp hr).noteLine i
    · next hne _ =>
      cases hn
      exact absurd rfl (hne i)

theorem next_none (h : Recent root last p) (hn : p.next = (.ok none, q)) : Recent root last q := by
  unfold Parser.next at hn
  split at hn
  · cases hn
  · split at hn
    · cases hn
    · next hr =>
      cases hn
      exact h.parseNext_none hr

end Recent

/-! ## The whole text -/

/-- With white space behind it a text yields the same list, or one more space.  The first happens
only if no break comes last, and the second only inside a paragraph. -/
theorem yields_behind {root : StyleState α} {last : Option (Instruction α)} {p : Parser α}
    {ws : List Char} {s : Scanner} {more : List String} {items : List (Instruction α)}
    (hws : Spaces ws) (hne : ws ≠ []) (h : Behind ws last p s more) (hr : Recent root last p)
    (hf : p.setup.fonts.KeepsSpaces) (hy : Yields p items) :
    (Yields (p.withRest s more) items ∧ ∀ i ∈ items.getLast?.or last, i.kind.isBreak = false) ∨
      Yields (p.withRest s more) (items ++ [.ofText " " root p.setup.fonts]) ∧
        ∃ i ∈ items.getLast?.or last, i.kind ≠ .paragraphEnd ∧
          (i.discardable = true → i = .ofText " " root p.setup.fonts) := by
  induction hy generalizing last s more with
  | @nil p q hn =>
    have hq := hr.next_none hn
    cases h.left_of_next hws hne hf hn with
    | nothing hsettled hleft =>
      refine Or.inl ⟨hleft, ?_⟩
      rcases hsettled with hb | ⟨j, hj, content, hk⟩
      · exact hq.between hb
      · intro i hi
        obtain rfl : j = i := Option.some.inj (hj.symm.trans hi)
        rw [hk]
        rfl
    | space hb hleft =>
      obtain ⟨hsetup, hstanding, -, hopen⟩ := standing_of_next_none hn
      have htags : q.openTags = [] := (congrArg Standing.openTags hstanding).trans hopen
      have hroot : q.state = root := by
        rw [← hq.outermost]
        unfold outermost
        rw [htags]
        rfl
      have hspace : q.space = .ofText " " root p.setup.fonts := by
        unfold space
        rw [hroot, hsetup]
      rw [hspace] at hleft
      obtain ⟨i, hi, hk⟩ := hq.inside hb
      exact Or.inr ⟨hleft, i, hi, hk, fun hd => (hq.space i hi hd).trans hspace⟩
  | @cons p q i items hn hmore ih =>
    obtain ⟨t, more', hread, hbehind⟩ := h.next_some hws hne hn
    have hsetup : q.setup = p.setup := (handout_of_next hn).1
    have hlast : (i :: items).getLast?.or last = items.getLast?.or (some i) := by
      rw [List.getLast?_cons]
      cases items.getLast? <;> rfl
    rw [hlast, ← hsetup]
    rcases ih hbehind (hr.next_some hf hn) (by rwa [hsetup]) with ⟨hsame, hbreak⟩ | ⟨hlong, hend⟩
    · exact Or.inl ⟨.cons hread hsame, hbreak⟩
    · exact Or.inr ⟨.cons hread hlong, hend⟩

theorem recent_ofText (text : String) (root : StyleState α) (setup : Setup α) :
    Recent root none (Parser.ofText text root setup) where
  runs := by simp [Parser.ofText]
  outermost := rfl
  waiting := by simp [Parser.ofText]
  between := by simp
  inside := by simp [Parser.ofText]
  space := by simp

theorem yields_append {text ws : String} {root : StyleState α} {setup : Setup α}
    {items : List (Instruction α)} (hws : Spaces ws.toList) (hne : ws ≠ "")
    (hf : setup.fonts.KeepsSpaces) (hy : Yields (Parser.ofText text root setup) items) :
    (Yields (Parser.ofText (text ++ ws) root setup) items ∧
        ∀ i ∈ items.getLast?, i.kind.isBreak = false) ∨
      Yields (Parser.ofText (text ++ ws) root setup) (items ++ [.ofText " " root setup.fonts]) ∧
        ∃ i ∈ items.getLast?, i.kind ≠ .paragraphEnd ∧
          (i.discardable = true → i = .ofText " " root setup.fonts) := by
  have hlist : ws.toList ≠ [] := by simpa using hne
  have hlong : (Parser.ofText text root setup).withRest
      ((Scanner.ofText text).extend ws.toList) [] = Parser.ofText (text ++ ws) root setup := by
    unfold withRest Parser.ofText Scanner.ofText Scanner.extend
    rw [String.toList_append]
    rfl
  have h := yields_behind hws hlist .ahead (recent_ofText text root setup) hf hy
  rw [Option.or_none] at h
  rw [← hlong]
  exact h

end Parser
end Paragraph
end Galley
