import Galley.Proofs.Paragraph.Tokenwise

/-
White space behind a text, as the parser reads it.

A parser of the longer text does what the parser of the text does, up to the end of the text: it
differs from it in what its scanner has left, and perhaps in one more run (`Behind`).  There it
has one more space to hand out, unless it is between paragraphs or the space goes on in the last
run of the text (`left_of_next`).
-/

namespace Galley
namespace Paragraph

open Font Markup Style

variable {α : Type} [Scalar α]

namespace Parser

variable {p q : Parser α}

/-- No break was handed out last, or white space is passed over. -/
def Settled (last : Option (Instruction α)) (p : Parser α) : Prop :=
  p.betweenParagraphs = true ∨ ∃ i ∈ last, ∃ content, i.kind = .text content

/-- `Behind ws last p s more`: a parser that reads the text of `p` and `ws` behind it is where `p`
is, with `s` left and `more` runs.  `last` was handed out last. -/
inductive Behind (ws : List Char) (last : Option (Instruction α)) (p : Parser α) :
    Scanner → List String → Prop where
  /-- The text is not read to its end. -/
  | ahead : Behind ws last p (p.scanner.extend ws) []
  /-- The white space is one more run. -/
  | queued {s : Scanner} (hp : p.scanner.next = (.ok none, p.scanner))
      (hs : s.next = (.ok none, s)) : Behind ws last p s [" "]
  /-- The white space goes on in the last run of the text. -/
  | merged {s : Scanner} (hp : p.scanner.next = (.ok none, p.scanner))
      (hs : s.next = (.ok none, s)) (hwait : p.pushed = [])
      (hlast : p.runs.getLast? = some " " ∨ p.runs = [] ∧ Settled last p) : Behind ws last p s []

namespace Behind

variable {ws : List Char} {last : Option (Instruction α)} {s : Scanner} {more : List String}

omit [Scalar α] in
theorem of_run (h : Behind ws last p s more) {run : String} {runs : List String}
    (hr : p.runs = run :: runs) {last' : Option (Instruction α)} {between : Bool}
    (hsettled : between = true ∨ ∃ i ∈ last', ∃ content, i.kind = .text content) :
    Behind ws last' { p with runs, betweenParagraphs := between } s more := by
  cases h with
  | ahead => exact .ahead
  | queued hp hs => exact .queued hp hs
  | merged hp hs hwait hlast =>
    refine .merged hp hs hwait ?_
    cases runs with
    | nil => exact Or.inr ⟨rfl, hsettled⟩
    | cons run' runs =>
      refine Or.inl ?_
      rcases hlast with hlast | ⟨hnil, -⟩
      · rwa [hr, List.getLast?_cons_cons] at hlast
      · rw [hr] at hnil
        cases hnil

omit [Scalar α] in
theorem of_token (h : Behind ws last p s more) {token : Token} {t : Scanner}
    (ht : p.scanner.next = (.ok (some token), t)) : s = p.scanner.extend ws ∧ more = [] := by
  cases h with
  | ahead => exact ⟨rfl, rfl⟩
  | queued hp hs =>
    rw [hp] at ht
    cases ht
  | merged hp hs hwait hlast =>
    rw [hp] at ht
    cases ht

theorem noteLine (h : Behind ws last p s more) (i : Instruction α) :
    Behind ws last (p.noteLine i) s more := by
  obtain ⟨lineOpen, heq⟩ := p.noteLine_eq i
  rw [heq]
  cases h with
  | ahead => exact .ahead
  | queued hp hs => exact .queued hp hs
  | merged hp hs hwait hlast => exact .merged hp hs hwait hlast

theorem of_text (h : Behind ws last p s more) (hws : Spaces ws) (hne : ws ≠ []) (hr : p.runs = [])
    (hwait : p.pushed = []) {t : Scanner} {runs : List String}
    (ht : p.scanner.next = (.ok (some (.text runs)), t)) :
    ∃ u more', (p.withRest s more).parseNext =
        (({ p with scanner := t, runs := splitRuns p.setup.mode runs } : Parser α).withRest
          u more').parseNext ∧
      Behind ws last { p with scanner := t, runs := splitRuns p.setup.mode runs } u more' := by
  obtain ⟨rfl, rfl⟩ := h.of_token ht
  have hr' : (p.withRest (p.scanner.extend ws) []).runs = [] := runs_withRest hr _ []
  have hread {u : Scanner} {runs' more' : List String}
      (hu : (p.scanner.extend ws).next = (.ok (some (.text runs')), u))
      (hruns : splitRuns p.setup.mode runs' = splitRuns p.setup.mode runs ++ more') :
      (p.withRest (p.scanner.extend ws) []).parseNext =
        (({ p with scanner := t, runs := splitRuns p.setup.mode runs } : Parser α).withRest
          u more').parseNext := by
    rw [parseNext_token hr' hu, onToken,
      show (p.withRest (p.scanner.extend ws) []).setup.mode = p.setup.mode from rfl, hruns]
    rfl
  rcases Scanner.next_extend hws hne ht with
    hsame | ⟨runs₀, runs', u, htoken, hend, hu, huend, hruns⟩
  · exact ⟨_, [], hread hsame (List.append_nil _).symm, .ahead⟩
  · cases htoken
    rcases hruns with rfl | ⟨rfl, hlast⟩
    · exact ⟨u, [" "], hread hu (by rw [splitRuns_append, splitRuns_space]), .queued hend huend⟩
    · exact ⟨u, [], hread hu (List.append_nil _).symm,
        .merged hend huend hwait (Or.inl (getLast?_splitRuns _ hlast))⟩

omit [Scalar α] in
/-- Tags stand before the white space. -/
theorem of_tag (h : Behind ws last p s more) (hws : Spaces ws) (hne : ws ≠ []) (hr : p.runs = [])
    {t : Scanner} {token : Token} (ht : p.scanner.next = (.ok (some token), t))
    (htag : ∀ runs, token ≠ .text runs) : more = [] ∧ (p.withRest s more).runs = [] ∧
      (p.withRest s more).scanner.next = (.ok (some token), t.extend ws) ∧
      (p.withRest s more).scanner.position = p.scanner.position := by
  obtain ⟨rfl, rfl⟩ := h.of_token ht
  refine ⟨rfl, runs_withRest hr _ [], ?_, rfl⟩
  rcases Scanner.next_extend hws hne ht with hsame | ⟨runs, _, _, htoken, -⟩
  · exact hsame
  · exact absurd htoken (htag runs)

/-- An opening tag is read alike in the longer text. -/
theorem of_opening (h : Behind ws last p s more) (hws : Spaces ws) (hne : ws ≠ [])
    (hr : p.runs = []) {t : Scanner} {tag : String} {options : Attributes}
    (ht : p.scanner.next = (.ok (some (.opening tag options)), t)) {i : Instruction α}
    (hopen : ({ p with scanner := t, betweenParagraphs := false } : Parser α).openTag tag options
      p.scanner.position = (.ok i, q)) :
    (p.withRest s more).parseNext = (.ok (some i), q.withRest (t.extend ws) []) ∧
      Behind ws (some i) q (t.extend ws) [] := by
  obtain ⟨rfl, hr', hs', hposition⟩ := h.of_tag hws hne hr ht (by simp)
  have hlong := openTag_withRest { p with scanner := t, betweenParagraphs := false } (t.extend ws)
    [] tag options p.scanner.position
  have hscanner := scanner_openTag { p with scanner := t, betweenParagraphs := false } tag options
    p.scanner.position
  rw [hopen] at hlong hscanner
  constructor
  · rw [parseNext_token hr' hs', onToken, hposition,
      show ({ p.withRest s [] with scanner := t.extend ws, betweenParagraphs := false } :
        Parser α) = ({ p with scanner := t, betweenParagraphs := false } : Parser α).withRest
          (t.extend ws) [] from rfl, hlong]
    rfl
  · rw [show t = q.scanner from hscanner.symm]
    exact .ahead

/-- So is an end tag, which the parser passes over if it closes nothing. -/
theorem of_closing (h : Behind ws last p s more) (hws : Spaces ws) (hne : ws ≠ [])
    (hr : p.runs = []) {t : Scanner} {tag : String}
    (ht : p.scanner.next = (.ok (some (.closing tag)), t)) {made : Option (Instruction α)}
    (hclose : ({ p with scanner := t } : Parser α).closeTag tag p.scanner.position =
      (.ok made, q)) :
    ((p.withRest s more).parseNext = match made with
      | none => (q.withRest (t.extend ws) []).parseNext
      | some i => (.ok (some i), q.withRest (t.extend ws) [])) ∧
      ∀ last', Behind ws last' q (t.extend ws) [] := by
  obtain ⟨rfl, hr', hs', hposition⟩ := h.of_tag hws hne hr ht (by simp)
  have hlong := closeTag_withRest { p with scanner := t } (t.extend ws) [] tag p.scanner.position
  have hscanner := scanner_closeTag { p with scanner := t } tag p.scanner.position
  rw [hclose] at hlong hscanner
  constructor
  · rw [parseNext_token hr' hs', onToken, hposition,
      show ({ p.withRest s [] with scanner := t.extend ws } : Parser α) =
        ({ p with scanner := t } : Parser α).withRest (t.extend ws) [] from rfl, hlong]
    cases made <;> rfl
  · intro last'
    rw [show t = q.scanner from hscanner.symm]
    exact .ahead

theorem parseNext_some (h : Behind ws last p s more) (hws : Spaces ws) (hne : ws ≠ [])
    (hwait : p.pushed = []) {i : Instruction α} (hn : p.parseNext = (.ok (some i), q)) :
    ∃ t more', (p.withRest s more).parseNext = (.ok (some i), q.withRest t more') ∧
      Behind ws (some i) q t more' := by
  revert h hwait hn s more
  fun_induction Parser.parseNext p
  case case1 p run runs hr _ hskip _ ih =>
    intro s more h hwait hn
    have hbehind : Behind ws last { p with runs } s more :=
      h.of_run hr (Or.inl (Bool.and_eq_true_iff.1 hskip).1)
    rw [parseNext_withRest hr, if_pos hskip]
    exact ih hbehind hwait hn
  case case2 p run runs hr _ hkeep =>
    intro s more h hwait hn
    rw [Prod.mk.injEq, Except.ok.injEq, Option.some.injEq] at hn
    obtain ⟨rfl, rfl⟩ := hn
    refine ⟨s, more, ?_, h.of_run hr (Or.inr ⟨_, rfl, (runInstruction_text p run).1⟩)⟩
    rw [parseNext_withRest hr, if_neg hkeep]
  case case3 => simp
  case case4 p hr scanner hs =>
    intro s more h hwait hn
    unfold atEnd at hn
    split at hn <;> cases hn
  case case5 p hr runs scanner hs _ ih =>
    intro s more h hwait hn
    obtain ⟨u, more', hread, hbehind⟩ := h.of_text hws hne hr hwait hs
    rw [hread]
    exact ih hbehind hwait hn
  case case6 p hr tag options scanner hs j r hq =>
    intro s more h hwait hn
    cases j with
    | error e => cases hn
    | ok j =>
      cases hn
      exact ⟨_, [], h.of_opening hws hne hr hs hq⟩
  case case7 p hr tag scanner hs r hc _ ih =>
    intro s more h hwait hn
    obtain rfl := closeTag_nothing hc
    obtain ⟨hread, hbehind⟩ := h.of_closing hws hne hr hs hc
    rw [hread]
    exact ih (hbehind last) hwait hn
  case case8 p hr tag scanner hs j r hc =>
    intro s more h hwait hn
    cases hn
    obtain ⟨hread, hbehind⟩ := h.of_closing hws hne hr hs hc
    exact ⟨_, [], hread, hbehind (some i)⟩
  case case9 => simp

theorem next_some (h : Behind ws last p s more) (hws : Spaces ws) (hne : ws ≠ [])
    {i : Instruction α} (hn : p.next = (.ok (some i), q)) :
    ∃ t more', (p.withRest s more).next = (.ok (some i), q.withRest t more') ∧
      Behind ws (some i) q t more' := by
  unfold Parser.next at hn
  split at hn
  · next j pushed hp =>
    cases hn
    refine ⟨s, more, ?_, ?_⟩
    · unfold Parser.next
      rw [show (p.withRest s more).pushed = i :: pushed from hp]
      rfl
    · cases h with
      | ahead => exact .ahead
      | queued hp hs => exact .queued hp hs
      | merged _ _ hwait =>
        rw [hp] at hwait
        cases hwait
  · next hp =>
    split at hn
    · next j r hr =>
      cases hn
      obtain ⟨t, more', hread, hbehind⟩ := h.parseNext_some hws hne hp hr
      refine ⟨t, more', ?_, hbehind.noteLine i⟩
      rw [next_read (p := p.withRest s more) hp hread, noteLine_withRest]
    · next hne' _ =>
      cases hn
      exact absurd rfl (hne' i)

/-- What is left of the longer text at the end of the text: nothing, or a space. -/
inductive Left (last : Option (Instruction α)) (p q : Parser α) : Prop where
  | nothing (hsettled : Settled last q) (hn : Yields p [])
  | space (hbetween : q.betweenParagraphs = false) (hn : Yields p [q.space])

theorem Left.congr {p' : Parser α} (h : Left last p q) (hwait : p'.pushed = p.pushed)
    (hn : p'.parseNext = p.parseNext) (hp : p.pushed = []) : Left last p' q := by
  have hnext : p'.next = p.next := by
    unfold Parser.next
    rw [hwait, hn, hp]
  have hyields {items : List (Instruction α)} (hy : Yields p items) : Yields p' items := by
    cases hy with
    | nil hn => exact .nil (hnext.trans hn)
    | cons hn hmore => exact .cons (hnext.trans hn) hmore
  cases h with
  | nothing hsettled hn => exact .nothing hsettled (hyields hn)
  | space hbetween hn => exact .space hbetween (hyields hn)

theorem left_of_lastSpace {p : Parser α} (hf : p.setup.fonts.KeepsSpaces) (hr : p.runs = [" "])
    (ho : p.openTags = []) (hs : p.scanner.next = (.ok none, p.scanner)) (hwait : p.pushed = [])
    (hbetween : p.betweenParagraphs = q.betweenParagraphs) (hspace : p.space = q.space) :
    Left last p q := by
  have hn := parseNext_lastSpace hf hr ho hs
  cases hb : p.betweenParagraphs with
  | true =>
    rw [hb, if_pos rfl] at hn
    exact .nothing (Or.inl (hbetween.symm.trans hb)) (.nil (next_end hwait hn))
  | false =>
    rw [hb, if_neg Bool.false_ne_true, hspace] at hn
    have hend : Ended ({ p with runs := [], betweenParagraphs := false } : Parser α) :=
      ⟨rfl, ho, hs⟩
    refine .space (hbetween.symm.trans hb)
      (.cons (next_read hwait hn) ((hend.noteLine _).yields ?_))
    rw [pushed_noteLine]
    exact hwait

theorem left_of_parseNext (h : Behind ws last p s more) (hws : Spaces ws) (hne : ws ≠ [])
    (hf : p.setup.fonts.KeepsSpaces) (hwait : p.pushed = []) (hn : p.parseNext = (.ok none, q)) :
    Left last (p.withRest s more) q := by
  revert h hf hwait hn s more
  fun_induction Parser.parseNext p
  case case1 p run runs hr _ hskip _ ih =>
    intro s more h hf hwait hn
    have hbehind : Behind ws last { p with runs } s more :=
      h.of_run hr (Or.inl (Bool.and_eq_true_iff.1 hskip).1)
    refine (ih hbehind hf hwait hn).congr rfl ?_ hwait
    rw [parseNext_withRest hr, if_pos hskip]
  case case2 => simp
  case case3 => simp
  case case4 p hr scanner hs =>
    intro s more h hf hwait hn
    unfold atEnd at hn
    split at hn
    · next ho =>
      cases hn
      obtain rfl := scanner_of_end hs
      cases h with
      | ahead =>
        obtain ⟨u, hu, huend⟩ := Scanner.next_extend_end hws hne hs
        have hr' : (p.withRest (p.scanner.extend ws) []).runs = [] := runs_withRest hr _ []
        have hleft : Left last ({ p with scanner := u, runs := [" "] } : Parser α) p :=
          left_of_lastSpace hf rfl ho huend hwait rfl rfl
        refine hleft.congr rfl ?_ hwait
        rw [parseNext_token hr' hu, onToken, splitRuns_space]
        rfl
      | queued hp hs' =>
        exact left_of_lastSpace hf (runs_withRest hr s [" "]) ho hs' hwait rfl rfl
      | merged hp hs' _ hlast =>
        rcases hlast with hlast | ⟨-, hsettled⟩
        · rw [hr] at hlast
          cases hlast
        · exact .nothing hsettled (Ended.yields ⟨runs_withRest hr s [], ho, hs'⟩ hwait)
    · cases hn
  case case5 p hr runs scanner hs _ ih =>
    intro s more h hf hwait hn
    obtain ⟨u, more', hread, hbehind⟩ := h.of_text hws hne hr hwait hs
    exact (ih hbehind hf hwait hn).congr rfl hread hwait
  case case6 p hr tag options scanner hs j r hq =>
    intro s more h hf hwait hn
    cases j <;> cases hn
  case case7 p hr tag scanner hs r hc _ ih =>
    intro s more h hf hwait hn
    obtain rfl := closeTag_nothing hc
    obtain ⟨hread, hbehind⟩ := h.of_closing hws hne hr hs hc
    exact (ih (hbehind last) hf hwait hn).congr rfl hread hwait
  case case8 => simp
  case case9 => simp

theorem left_of_next (h : Behind ws last p s more) (hws : Spaces ws) (hne : ws ≠ [])
    (hf : p.setup.fonts.KeepsSpaces) (hn : p.next = (.ok none, q)) :
    Left last (p.withRest s more) q := by
  obtain ⟨-, -, hwait, -⟩ := standing_of_next_none hn
  refine h.left_of_parseNext hws hne hf hwait ?_
  unfold Parser.next at hn
  rw [hwait] at hn
  dsimp only at hn
  split at hn
  · cases hn
  · next hr =>
    cases hn
    exact hr

end Behind

end Parser
end Paragraph
end Galley
