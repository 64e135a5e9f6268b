import Mathlib
import Galley.Proofs.Markup.Appending
import Galley.Proofs.Paragraph.Yields

/-
The parser, one token at a time.

What one call does depends on the next run, or on the next token of the scanner
(`parseNext_run`, `parseNext_token`).  Tags are read alike whatever text is left behind them
(`openTag_withRest`, `closeTag_withRest`).  With faces that show a space as it is, a run is white
space exactly if it is a space (`eq_space_of_discardable`).
-/

namespace Galley
namespace Font

variable {α : Type}

/-- Faces that show a space as it is, and nothing else as white space. -/
structure FontService.KeepsSpaces (fonts : FontService α) : Prop where
  space : ∀ face, fonts.normalize face " " = " "
  only : ∀ face text, ' ' ∉ text.toList →
    (fonts.normalize face text).toList.any Text.isSpace = false

namespace Catalog

theorem canEncode_standard (face : FontHandle) (c : Char) :
    standard.canEncode face c = (winAnsi? c).isSome := by
  have hentry : ∃ font, standard.entry face = .standard font := by
    unfold entry standard
    rw [List.getElem?_toArray, List.getElem?_map]
    cases StandardFont.all[face.index]? with
    | none => exact ⟨_, rfl⟩
    | some font => exact ⟨font, rfl⟩
  obtain ⟨font, hfont⟩ := hentry
  unfold canEncode measured
  rw [hfont]

theorem keepsSpaces_standard [Scalar α] :
    (standard.service : FontService α).KeepsSpaces where
  space face := by
    show String.ofList [if standard.canEncode face ' ' then ' ' else '?'] = " "
    rw [canEncode_standard]
    decide
  only face text h := by
    show (String.ofList (text.toList.map fun c =>
      if standard.canEncode face c then c else '?')).toList.any Text.isSpace = false
    rw [String.toList_ofList, List.any_map, List.any_eq_false]
    intro c hc hspace
    have hne : c ≠ ' ' := by
      rintro rfl
      exact h hc
    simp only [Function.comp_apply, canEncode_standard] at hspace
    split at hspace
    · next hbyte =>
      -- of the white space only the space has a byte
      have hall : ∀ d ∈ Markup.whiteSpace, (winAnsi? d).isSome = true → d = ' ' := by
        simp [Markup.whiteSpace, winAnsi?, typographicBytes]
      exact hne (hall c (Markup.isSpace_iff_mem.1 hspace) hbyte)
    · exact absurd hspace (by decide)

end Catalog
end Font

namespace Paragraph

open Font Markup Style

variable {α : Type}

/-- A break that is not the end of a paragraph. -/
def Kind.isBreak : Kind α → Bool
  | lineBreak | pageBreak => true
  | _ => false

namespace Parser

/-! ## Runs -/

theorem splitRuns_append (mode : WrapMode) (runs more : List String) :
    splitRuns mode (runs ++ more) = splitRuns mode runs ++ splitRuns mode more := by
  cases mode with
  | word => rfl
  | character => exact List.flatMap_append

theorem splitRuns_space (mode : WrapMode) : splitRuns mode [" "] = [" "] := by
  cases mode <;> rfl

theorem getLast?_splitRuns (mode : WrapMode) {runs : List String}
    (h : runs.getLast? = some " ") : (splitRuns mode runs).getLast? = some " " := by
  obtain ⟨front, rfl⟩ := List.getLast?_eq_some_iff.1 h
  rw [splitRuns_append, splitRuns_space, List.getLast?_concat]

theorem isRun_splitRuns (mode : WrapMode) {runs : List String} (h : ∀ run ∈ runs, IsRun run) :
    ∀ run ∈ splitRuns mode runs, IsRun run := by
  cases mode with
  | word => exact h
  | character =>
    intro run hrun
    obtain ⟨whole, hwhole, hrun⟩ := List.mem_flatMap.1 hrun
    split at hrun
    · rw [List.mem_singleton.1 hrun]
      exact h whole hwhole
    · obtain ⟨c, -, rfl⟩ := List.mem_map.1 hrun
      exact isRun_char c

variable [Scalar α] {p q : Parser α}

/-- A space as it is read now. -/
def space (p : Parser α) : Instruction α := .ofText " " p.state p.setup.fonts

theorem ofText_space {fonts : FontService α} (hf : fonts.KeepsSpaces) (state : StyleState α) :
    (Instruction.ofText " " state fonts).discardable = true ∧
      (Instruction.ofText " " state fonts).breakOpportunity = true := by
  constructor
  · show (fonts.normalize state.font " ").toList.any Text.isSpace = true
    rw [hf.space]
    decide
  · show (fonts.normalize state.font " ").toList.any Instruction.isBreakChar = true
    rw [hf.space]
    decide

theorem discardable_runInstruction (p : Parser α) (run : String) :
    (p.runInstruction run).discardable =
      (p.setup.fonts.normalize p.state.font run).toList.any Text.isSpace := by
  unfold runInstruction
  dsimp only
  split <;> rfl

theorem runInstruction_space (hf : p.setup.fonts.KeepsSpaces) : p.runInstruction " " = p.space := by
  have hspace : p.space.discardable = true := (ofText_space hf p.state).1
  unfold runInstruction
  dsimp only
  rw [if_neg]
  · rfl
  · rw [show (Instruction.ofText " " p.state p.setup.fonts).discardable = true from hspace]
    simp

/-- Only a space is white space. -/
theorem eq_space_of_discardable (hf : p.setup.fonts.KeepsSpaces) {run : String} (hrun : IsRun run)
    (h : (p.runInstruction run).discardable = true) : p.runInstruction run = p.space := by
  rcases hrun with rfl | hrun
  · exact runInstruction_space hf
  · rw [discardable_runInstruction, hf.only _ _ hrun] at h
    cases h

/-! ## One call, by what comes next -/

theorem parseNext_run {run : String} {runs : List String} (hr : p.runs = run :: runs) :
    p.parseNext = if p.betweenParagraphs && (p.runInstruction run).discardable then
        ({ p with runs } : Parser α).parseNext
      else (.ok (some (p.runInstruction run)), { p with runs, betweenParagraphs := false }) := by
  rw [parseNext]
  split
  · next h =>
    rw [hr] at h
    cases h
    rfl
  · next h =>
    rw [hr] at h
    cases h

/-- How a parser goes on from what its scanner has found. -/
def onToken (p : Parser α) : Except Error (Option Token) × Scanner →
    Except Error (Option (Instruction α)) × Parser α
  | (.error e, scanner) => (.error e, { p with scanner })
  | (.ok none, scanner) => (p.atEnd, { p with scanner })
  | (.ok (some (.text runs)), scanner) =>
    ({ p with scanner, runs := splitRuns p.setup.mode runs } : Parser α).parseNext
  | (.ok (some (.opening tag options)), scanner) =>
    let opened := ({ p with scanner, betweenParagraphs := false } : Parser α).openTag tag options
      p.scanner.position
    (opened.1.map some, opened.2)
  | (.ok (some (.closing tag)), scanner) =>
    match ({ p with scanner } : Parser α).closeTag tag p.scanner.position with
    | (.ok none, q) => q.parseNext
    | (.ok (some i), q) => (.ok (some i), q)
    | (.error e, q) => (.error e, q)

theorem parseNext_token (hr : p.runs = []) {found : Except Error (Option Token) × Scanner}
    (hs : p.scanner.next = found) : p.parseNext = p.onToken found := by
  rw [parseNext]
  split
  · next h =>
    rw [hr] at h
    cases h
  · split
    · next h => cases hs.symm.trans h; rfl
    · next h => cases hs.symm.trans h; rfl
    · next h => cases hs.symm.trans h; rfl
    · next h => cases hs.symm.trans h; rfl
    · next h =>
      cases hs.symm.trans h
      rw [onToken]
      split
      · next hc => simp only [hc]
      · next hc => rw [hc]
      · next hc => rw [hc]

theorem next_read (hp : p.pushed = []) {i : Instruction α} (h : p.parseNext = (.ok (some i), q)) :
    p.next = (.ok (some i), q.noteLine i) := by
  unfold Parser.next
  rw [hp, h]

theorem next_end (hp : p.pushed = []) (h : p.parseNext = (.ok none, q)) :
    p.next = (.ok none, q) := by
  unfold Parser.next
  rw [hp, h]

/-! ## The end of the text -/

/-- Nothing is left to be read, and no tag is open. -/
structure Ended (p : Parser α) : Prop where
  runs : p.runs = []
  openTags : p.openTags = []
  scanner : p.scanner.next = (.ok none, p.scanner)

theorem Ended.parseNext (h : Ended p) : p.parseNext = (.ok none, p) :=
  parseNext_of_spent h.runs h.openTags h.scanner

/-- Taking note of an instruction changes nothing but what is known of the line. -/
theorem noteLine_eq (p : Parser α) (i : Instruction α) :
    ∃ lineOpen, p.noteLine i = { p with lineOpen } := by
  unfold noteLine
  split
  · exact ⟨false, rfl⟩
  · split
    · exact ⟨true, rfl⟩
    · exact ⟨p.lineOpen, rfl⟩

@[simp] theorem pushed_noteLine (p : Parser α) (i : Instruction α) :
    (p.noteLine i).pushed = p.pushed := by
  obtain ⟨lineOpen, h⟩ := p.noteLine_eq i
  rw [h]

theorem Ended.noteLine (h : Ended p) (i : Instruction α) : Ended (p.noteLine i) := by
  obtain ⟨lineOpen, heq⟩ := p.noteLine_eq i
  rw [heq]
  exact ⟨h.runs, h.openTags, h.scanner⟩

theorem Ended.yields (h : Ended p) (hwait : p.pushed = []) : Yields p [] :=
  .nil (next_end hwait h.parseNext)

/-- A space that comes last is handed out, or passed over between paragraphs. -/
theorem parseNext_lastSpace (hf : p.setup.fonts.KeepsSpaces) (hr : p.runs = [" "])
    (ho : p.openTags = []) (hs : p.scanner.next = (.ok none, p.scanner)) : p.parseNext =
      if p.betweenParagraphs then (.ok none, { p with runs := [] })
      else (.ok (some p.space), { p with runs := [], betweenParagraphs := false }) := by
  have hspace : p.space.discardable = true := (ofText_space hf p.state).1
  rw [parseNext_run hr, runInstruction_space hf, hspace, Bool.and_true]
  split
  · exact Ended.parseNext ⟨rfl, ho, hs⟩
  · rfl

/-! ## The rest of the text -/

/-- A parser with other text left, and with more runs. -/
def withRest (p : Parser α) (s : Scanner) (more : List String) : Parser α :=
  { p with scanner := s, runs := p.runs ++ more }

theorem parseNext_withRest {run : String} {runs : List String} (hr : p.runs = run :: runs)
    (s : Scanner) (more : List String) : (p.withRest s more).parseNext =
      if p.betweenParagraphs && (p.runInstruction run).discardable then
        (({ p with runs } : Parser α).withRest s more).parseNext
      else (.ok (some (p.runInstruction run)),
        ({ p with runs, betweenParagraphs := false } : Parser α).withRest s more) :=
  parseNext_run (congrArg (· ++ more) hr)

theorem enter_withRest (p : Parser α) (s : Scanner) (more : List String) (tag : String)
    (position : Nat) (kind : Kind α) (scope : Scope) (child : StyleState α) :
    (p.withRest s more).enter tag position kind scope child =
      ((p.enter tag position kind scope child).1,
        (p.enter tag position kind scope child).2.withRest s more) := by
  have hline : (p.withRest s more).lineOpen = p.lineOpen := rfl
  unfold enter
  dsimp only
  rw [hline]
  split <;> rfl

theorem openScope_withRest (p : Parser α) (s : Scanner) (more : List String) (tag : String)
    (style : TagStyle α) (options : Attributes) (position : Nat) :
    (p.withRest s more).openScope tag style options position =
      ((p.openScope tag style options position).1,
        (p.openScope tag style options position).2.withRest s more) := by
  have hderive : (p.withRest s more).state.derive (p.withRest s more).nextSerial style
      (p.withRest s more).setup.fonts (p.withRest s more).setup.registry =
        p.state.derive p.nextSerial style p.setup.fonts p.setup.registry := rfl
  have hkind (child : StyleState α) : (p.withRest s more).openingKind tag style options child =
      p.openingKind tag style options child := rfl
  unfold openScope
  rw [hderive]
  split
  · rfl
  · rw [hkind]
    split
    · rfl
    · dsimp only
      rw [show ({ p.withRest s more with nextSerial := (p.withRest s more).nextSerial + 1 } :
        Parser α) = ({ p with nextSerial := p.nextSerial + 1 } : Parser α).withRest s more from rfl,
        enter_withRest]

theorem openTag_withRest (p : Parser α) (s : Scanner) (more : List String) (tag : String)
    (raw : Attributes) (position : Nat) : (p.withRest s more).openTag tag raw position =
      ((p.openTag tag raw position).1, (p.openTag tag raw position).2.withRest s more) := by
  have hresolve : (p.withRest s more).resolveTag tag raw position =
      p.resolveTag tag raw position := rfl
  unfold openTag
  rw [hresolve]
  split
  · rfl
  · split
    · rfl
    · rfl
    · exact openScope_withRest p s more tag _ _ position
    · exact openScope_withRest p s more tag _ _ position

theorem closeTag_withRest (p : Parser α) (s : Scanner) (more : List String) (tag : String)
    (position : Nat) : (p.withRest s more).closeTag tag position =
      ((p.closeTag tag position).1, (p.closeTag tag position).2.withRest s more) := by
  have hvoid : (p.withRest s more).setup.registry.isVoid tag = p.setup.registry.isVoid tag := rfl
  have hopen : (p.withRest s more).openTags = p.openTags := rfl
  unfold closeTag
  rw [hvoid, hopen]
  split
  · rfl
  · split
    · rfl
    · split <;> rfl

omit [Scalar α] in
theorem runs_withRest (hr : p.runs = []) (s : Scanner) (more : List String) :
    (p.withRest s more).runs = more := by
  show p.runs ++ more = more
  rw [hr, List.nil_append]

omit [Scalar α] in
theorem withRest_self (p : Parser α) : p.withRest p.scanner [] = p := by
  unfold withRest
  rw [List.append_nil]

theorem scanner_openTag (p : Parser α) (tag : String) (raw : Attributes) (position : Nat) :
    (p.openTag tag raw position).2.scanner = p.scanner := by
  have h := openTag_withRest p p.scanner [] tag raw position
  rw [withRest_self] at h
  rw [h]
  rfl

theorem scanner_closeTag (p : Parser α) (tag : String) (position : Nat) :
    (p.closeTag tag position).2.scanner = p.scanner := by
  have h := closeTag_withRest p p.scanner [] tag position
  rw [withRest_self] at h
  rw [h]
  rfl

theorem noteLine_withRest (p : Parser α) (s : Scanner) (more : List String) (i : Instruction α) :
    (p.withRest s more).noteLine i = (p.noteLine i).withRest s more := by
  unfold noteLine
  split <;> [rfl; split <;> rfl]

end Parser
end Paragraph
end Galley
