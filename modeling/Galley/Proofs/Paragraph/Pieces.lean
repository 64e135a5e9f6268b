import Galley.Proofs.Markup.Places
import Galley.Proofs.Paragraph.Tokenwise

/-
Reading a text piece by piece.

Between two calls a parser may stand in the middle of a token: runs wait to be read, or the start of
a block waits behind the break before it.  `Parser.take` is what a parser makes of a whole piece, a
run of text or a tag, so that nothing waits behind it, and `Parser.takeAll` what it makes of many.
What a text hands out is what is made of its pieces, and then the end decides (`stream_eq`).
-/

namespace Galley
namespace Style

open Markup

variable {α : Type}

namespace TagStyle

theorem flow_withOption {style changed : TagStyle α} {name value : String}
    (h : style.withOption name value = .ok changed) :
    changed.display = style.display ∧ changed.indent = style.indent := by
  unfold withOption at h
  split at h
  all_goals first
    | (cases h; exact ⟨rfl, rfl⟩)
    | (obtain ⟨_, -, rfl⟩ := exists_of_map_ok h; exact ⟨rfl, rfl⟩)

/-- Options do not change how a tag takes part in the flow of lines, nor how far it indents. -/
theorem flow_withOptions {style changed : TagStyle α} {options : Attributes}
    (h : style.withOptions options = .ok changed) :
    changed.display = style.display ∧ changed.indent = style.indent := by
  unfold withOptions at h
  generalize options.entries = entries at h
  induction entries generalizing style with
  | nil =>
    cases h
    exact ⟨rfl, rfl⟩
  | cons entry entries ih =>
    rw [List.foldlM_cons] at h
    obtain ⟨first, hfirst, hrest⟩ := exists_of_bind_ok h
    obtain ⟨hdisplay, hindent⟩ := flow_withOption hfirst
    exact ⟨(ih hrest).1.trans hdisplay, (ih hrest).2.trans hindent⟩

end TagStyle

end Style

namespace Paragraph

open Font Markup Style

variable {α : Type} [Scalar α]

/-! ## Everything that a text hands out -/

namespace Parser

variable {p q r : Parser α} {i : Instruction α} {e : Error}

/-- All instructions of a text, if it can be read to its end. -/
def stream (p : Parser α) : Except Error (List (Instruction α)) :=
  p.handouts.1.map (List.map Handed.item)

theorem stream_of_next (h : p.next = (.ok (some i), q)) : p.stream = q.stream.map (i :: ·) := by
  unfold stream
  rw [handouts]
  split
  · next h' => rw [h] at h'; cases h'
  · next h' => rw [h] at h'; cases h'
  · next h' =>
    rw [h] at h'
    cases h'
    dsimp only
    cases q.handouts.1 <;> rfl

theorem stream_of_end (h : p.next = (.ok none, q)) : p.stream = .ok [] := by
  unfold stream
  rw [handouts]
  split
  · next h' => rw [h] at h'; cases h'
  · rfl
  · next h' => rw [h] at h'; cases h'

theorem stream_of_error (h : p.next = (.error e, q)) : p.stream = .error e := by
  unfold stream
  rw [handouts]
  split
  · next h' =>
    rw [h] at h'
    cases h'
    rfl
  · next h' => rw [h] at h'; cases h'
  · next h' => rw [h] at h'; cases h'

theorem stream_congr (h : p.next = q.next) : p.stream = q.stream := by
  cases hq : q.next with
  | mk result r =>
    rw [hq] at h
    cases result with
    | error e => rw [stream_of_error h, stream_of_error hq]
    | ok found =>
      cases found with
      | none => rw [stream_of_end h, stream_of_end hq]
      | some i => rw [stream_of_next h, stream_of_next hq]

theorem stream_eq_ok_iff {items : List (Instruction α)} :
    p.stream = .ok items ↔ ∃ out q, p.handouts = (.ok out, q) ∧ out.map Handed.item = items := by
  unfold stream
  constructor
  · intro h
    obtain ⟨out, hout, hitems⟩ := exists_of_map_ok h
    exact ⟨out, _, Prod.ext hout rfl, hitems⟩
  · rintro ⟨out, q, hread, rfl⟩
    rw [hread]
    rfl

theorem stream_eq_error_iff : p.stream = .error e ↔ ∃ q, p.handouts = (.error e, q) := by
  unfold stream
  constructor
  · intro h
    exact ⟨_, Prod.ext (error_of_map h) rfl⟩
  · rintro ⟨q, hread⟩
    rw [hread]
    rfl

end Parser

/-! ## Pieces -/

/-- What is read as a whole: a run of text, or a tag at its place. -/
inductive Piece where
  | run (content : String)
  | opening (tag : String) (options : Attributes) (position : Nat)
  | closing (tag : String) (position : Nat)

/-- A token is one piece, but for text, which is read run by run. -/
def piecesOf (mode : WrapMode) : Token × Nat → List Piece
  | (.text runs, _) => (Parser.splitRuns mode runs).map .run
  | (.opening tag options, position) => [.opening tag options position]
  | (.closing tag, position) => [.closing tag position]

namespace Parser

variable {p q r : Parser α} {i : Instruction α} {e : Error}

omit [Scalar α] in
theorem isVoid_of_resolveTag {tag : String} {raw options : Attributes} {position : Nat}
    {style : TagStyle α} (h : p.resolveTag tag raw position = .ok (style, options)) :
    p.setup.registry.isVoid tag = style.display.isVoid := by
  unfold resolveTag at h
  split at h
  · cases h
  · next registered hfind =>
    obtain ⟨changed, hchanged, heq⟩ := exists_of_map_ok h
    cases heq
    unfold Registry.isVoid
    rw [hfind, (TagStyle.flow_withOptions hchanged).1]

/-- Nothing waits. -/
structure Quiet (p : Parser α) : Prop where
  runs : p.runs = []
  pushed : p.pushed = []

/-- What a parser that nothing waits in hands out for one piece, and the parser behind it. -/
def take (p : Parser α) : Piece → Except Error (List (Instruction α) × Parser α)
  | .run content =>
    if p.betweenParagraphs && (p.runInstruction content).discardable then .ok ([], p)
    else .ok ([p.runInstruction content],
      ({ p with betweenParagraphs := false } : Parser α).noteLine (p.runInstruction content))
  | .opening tag options position =>
    match ({ p with betweenParagraphs := false } : Parser α).openTag tag options position with
    | (.error e, _) => .error e
    | (.ok i, q) => .ok (i :: q.pushed, ({ q with pushed := [] } : Parser α).noteLine i)
  | .closing tag position =>
    match p.closeTag tag position with
    | (.error e, _) => .error e
    | (.ok none, q) => .ok ([], q)
    | (.ok (some i), q) => .ok ([i], q.noteLine i)

/-! ## Tags -/

section

variable {tag : String} {position : Nat}

theorem closeTag_of_void (hv : p.setup.registry.isVoid tag = true) :
    p.closeTag tag position = (.ok none, p) := by
  unfold closeTag
  rw [if_pos hv]

theorem closeTag_of_nil (hv : p.setup.registry.isVoid tag = false) (ho : p.openTags = []) :
    p.closeTag tag position = (.error (.nesting .nothingOpen tag position), p) := by
  unfold closeTag
  rw [if_neg (by simp [hv]), ho]

variable {opened : OpenTag α} {openTags : List (OpenTag α)}

theorem closeTag_of_match (hv : p.setup.registry.isVoid opened.tag = false)
    (ho : p.openTags = opened :: openTags) :
    p.closeTag opened.tag position =
      (.ok (some (p.instruction (closingKind opened.tag opened.scope))),
        { p with
          openTags
          state := opened.enclosing
          betweenParagraphs := p.betweenParagraphs || opened.scope = .block }) := by
  unfold closeTag
  rw [if_neg (by simp [hv]), ho]
  dsimp only
  rw [if_pos rfl]

theorem closeTag_of_mismatch (hv : p.setup.registry.isVoid tag = false)
    (ho : p.openTags = opened :: openTags) (htag : opened.tag ≠ tag) :
    p.closeTag tag position =
      (.error (.nesting .mismatched tag position), { p with openTags }) := by
  unfold closeTag
  rw [if_neg (by simp [hv]), ho]
  dsimp only
  rw [if_neg htag]

end

theorem take_closing (p : Parser α) (tag : String) (position : Nat) :
    p.take (.closing tag position) =
      match p.closeTag tag position with
      | (.error e, _) => .error e
      | (.ok none, q) => .ok ([], q)
      | (.ok (some i), q) => .ok ([i], q.noteLine i) := rfl

/-- All that is handed out for these pieces, and the parser behind them. -/
def takeAll (p : Parser α) : List Piece → Except Error (List (Instruction α) × Parser α)
  | [] => .ok ([], p)
  | piece :: pieces =>
    match p.take piece with
    | .error e => .error e
    | .ok (out, q) => (q.takeAll pieces).map fun (more, r) => (out ++ more, r)

/-- What is read first, and then what the parser behind it reads. -/
def follow (x : Except Error (List (Instruction α) × Parser α))
    (then_ : Parser α → Except Error (List (Instruction α))) :
    Except Error (List (Instruction α)) :=
  match x with
  | .error e => .error e
  | .ok (out, q) => (then_ q).map (out ++ ·)

/-- `Takes p piece out q`: everything that a piece can do. -/
inductive Takes (p : Parser α) : Piece → List (Instruction α) → Parser α → Prop where
  | skipped {content : String} (hb : p.betweenParagraphs = true)
      (hd : (p.runInstruction content).discardable = true) : Takes p (.run content) [] p
  | run {content : String} {lineOpen : Bool}
      (hkeep : p.betweenParagraphs = true → (p.runInstruction content).discardable = false) :
      Takes p (.run content) [p.runInstruction content]
        { p with betweenParagraphs := false, lineOpen }
  | void {tag : String} {options : Attributes} {position : Nat} {kind : Kind α} {lineOpen : Bool}
      (hv : p.setup.registry.isVoid tag = true) (hk : kind.isBreak = true) :
      Takes p (.opening tag options position) [p.instruction kind]
        { p with betweenParagraphs := false, lineOpen }
  | opening {tag : String} {options : Attributes} {position : Nat} {kind : Kind α} {scope : Scope}
      {child : StyleState α} {before : List (Instruction α)} {lineOpen : Bool}
      (hv : p.setup.registry.isVoid tag = false) (hk : OpensAs tag kind scope)
      (hbefore : before = [] ∨ before = [p.instruction .lineBreak]) :
      Takes p (.opening tag options position) (before ++ [.ofKind kind child p.setup.fonts])
        { p with
          state := child
          openTags := { tag, scope, enclosing := p.state, position } :: p.openTags
          betweenParagraphs := false
          lineOpen
          nextSerial := p.nextSerial + 1 }
  | passed {tag : String} {position : Nat} (hv : p.setup.registry.isVoid tag = true) :
      Takes p (.closing tag position) [] p
  | closing {opened : OpenTag α} {openTags : List (OpenTag α)} {position : Nat} {lineOpen : Bool}
      (hv : p.setup.registry.isVoid opened.tag = false) (ho : p.openTags = opened :: openTags) :
      Takes p (.closing opened.tag position)
        [p.instruction (closingKind opened.tag opened.scope)]
        { p with
          openTags
          state := opened.enclosing
          betweenParagraphs := p.betweenParagraphs || opened.scope = .block
          lineOpen }

namespace Takes

variable {piece : Piece} {out : List (Instruction α)} {tag : String} {options : Attributes}
  {position : Nat}

theorem of_noteLine (h : ∀ lineOpen, Takes p piece out { q with lineOpen }) :
    Takes p piece out (q.noteLine i) := by
  obtain ⟨lineOpen, heq⟩ := q.noteLine_eq i
  rw [heq]
  exact h lineOpen

theorem of_enter (hp : p.pushed = []) (hv : p.setup.registry.isVoid tag = false) {kind : Kind α}
    {scope : Scope} (hk : OpensAs tag kind scope) {child : StyleState α}
    (h : ({ p with betweenParagraphs := false, nextSerial := p.nextSerial + 1 } : Parser α).enter
      tag position kind scope child = (i, q)) :
    Takes p (.opening tag options position) (i :: q.pushed)
      (({ q with pushed := [] } : Parser α).noteLine i) := by
  obtain ⟨setup, scanner, state, openTags, runs, pushed, between, wasOpen, nextSerial⟩ := p
  cases hp
  unfold enter at h
  split at h
  · cases h
    exact .of_noteLine fun lineOpen => .opening hv hk (Or.inr rfl)
  · cases h
    exact .of_noteLine fun lineOpen => .opening hv hk (Or.inl rfl)

theorem of_openTag (hp : p.pushed = [])
    (h : ({ p with betweenParagraphs := false } : Parser α).openTag tag options position =
      (.ok i, q)) :
    Takes p (.opening tag options position) (i :: q.pushed)
      (({ q with pushed := [] } : Parser α).noteLine i) := by
  have hscope {style : TagStyle α} {resolved : Attributes}
      (hv : p.setup.registry.isVoid tag = false)
      (h : ({ p with betweenParagraphs := false } : Parser α).openScope tag style resolved
        position = (.ok i, q)) :
      Takes p (.opening tag options position) (i :: q.pushed)
        (({ q with pushed := [] } : Parser α).noteLine i) := by
    unfold openScope at h
    split at h
    · cases h
    · next child _ =>
      split at h
      · cases h
      · next kind scope hkind =>
        cases h
        exact of_enter hp hv (openingKind_opensAs hkind) rfl
  unfold openTag at h
  split at h
  · cases h
  · next style resolved hresolve =>
    have hvoid := isVoid_of_resolveTag hresolve
    have hbreak {kind : Kind α} (hk : kind.isBreak = true) (hv : style.display.isVoid = true) :
        Takes p (.opening tag options position) (p.instruction kind :: p.pushed)
          (({ p with betweenParagraphs := false, pushed := [] } : Parser α).noteLine
            (p.instruction kind)) := by
      obtain ⟨setup, scanner, state, openTags, runs, pushed, between, wasOpen, nextSerial⟩ := p
      cases hp
      exact .of_noteLine fun lineOpen => .void (hvoid.trans hv) hk
    split at h
    · next hdisplay =>
      cases h
      exact hbreak rfl (by rw [hdisplay]; rfl)
    · next hdisplay =>
      cases h
      exact hbreak rfl (by rw [hdisplay]; rfl)
    · next hdisplay => exact hscope (hvoid.trans (by rw [hdisplay]; rfl)) h
    · next hdisplay => exact hscope (hvoid.trans (by rw [hdisplay]; rfl)) h

theorem of_take (hp : p.pushed = []) (h : p.take piece = .ok (out, q)) : Takes p piece out q := by
  cases piece with
  | run content =>
    dsimp only [Parser.take] at h
    split at h
    · next hskip =>
      cases h
      rw [Bool.and_eq_true] at hskip
      exact .skipped hskip.1 hskip.2
    · next hkeep =>
      cases h
      refine .of_noteLine fun lineOpen => .run fun hb => ?_
      rw [hb, Bool.true_and] at hkeep
      simpa using hkeep
  | opening tag options position =>
    dsimp only [Parser.take] at h
    split at h
    · cases h
    · next i r hopen =>
      cases h
      exact of_openTag hp hopen
  | closing tag position =>
    cases hv : p.setup.registry.isVoid tag with
    | true =>
      rw [take_closing, closeTag_of_void hv] at h
      cases h
      exact .passed hv
    | false =>
      cases ho : p.openTags with
      | nil =>
        rw [take_closing, closeTag_of_nil hv ho] at h
        cases h
      | cons opened openTags =>
        by_cases htag : opened.tag = tag
        · subst htag
          rw [take_closing, closeTag_of_match hv ho] at h
          cases h
          exact .of_noteLine fun lineOpen => .closing hv ho
        · rw [take_closing, closeTag_of_mismatch hv ho htag] at h
          cases h

end Takes

/-- Nothing waits behind a piece. -/
theorem Takes.quiet {piece : Piece} {out : List (Instruction α)} (h : Takes p piece out q)
    (hp : p.Quiet) : q.Quiet ∧ q.setup = p.setup := by
  cases h <;> exact ⟨⟨hp.runs, hp.pushed⟩, rfl⟩

/-! ## From calls to pieces -/

omit [Scalar α] in
theorem withRest_runs (hr : p.runs = []) (s : Scanner) (runs : List String) :
    p.withRest s runs = { p with scanner := s, runs } := by
  unfold withRest
  rw [hr, List.nil_append]

theorem next_congr (hp : p.pushed = []) (hq : q.pushed = []) (h : p.parseNext = q.parseNext) :
    p.next = q.next := by
  unfold Parser.next
  rw [hp, hq, h]

theorem next_error (hp : p.pushed = []) (h : p.parseNext = (.error e, q)) :
    p.next = (.error e, q) := by
  unfold Parser.next
  rw [hp, h]

omit [Scalar α] in
@[simp] theorem follow_nil (q : Parser α)
    (then_ : Parser α → Except Error (List (Instruction α))) :
    follow (.ok ([], q)) then_ = then_ q := by
  unfold follow
  dsimp only
  cases then_ q <;> rfl

omit [Scalar α] in
theorem follow_congr {x : Except Error (List (Instruction α) × Parser α)}
    {first second : Parser α → Except Error (List (Instruction α))}
    (h : ∀ out q, x = .ok (out, q) → first q = second q) : follow x first = follow x second := by
  cases x with
  | error e => rfl
  | ok taken => exact congrArg (Except.map (taken.1 ++ ·)) (h taken.1 taken.2 rfl)

theorem takeAll_cons_ok {piece : Piece} {pieces : List Piece} {out : List (Instruction α)}
    (h : p.takeAll (piece :: pieces) = .ok (out, q)) :
    ∃ first r more, p.take piece = .ok (first, r) ∧ r.takeAll pieces = .ok (more, q) ∧
      out = first ++ more := by
  rw [takeAll] at h
  split at h
  · cases h
  · next first r htake =>
    obtain ⟨⟨more, last⟩, hmore, heq⟩ := exists_of_map_ok h
    cases heq
    exact ⟨first, r, more, htake, hmore, rfl⟩

theorem follow_takeAll_cons (p : Parser α) (piece : Piece) (pieces : List Piece)
    (then_ : Parser α → Except Error (List (Instruction α))) :
    follow (p.takeAll (piece :: pieces)) then_ =
      follow (p.take piece) fun q => follow (q.takeAll pieces) then_ := by
  rw [takeAll]
  cases p.take piece with
  | error e => rfl
  | ok taken =>
    obtain ⟨out, q⟩ := taken
    dsimp only [follow]
    cases q.takeAll pieces with
    | error e => rfl
    | ok more =>
      obtain ⟨more, r⟩ := more
      dsimp only [Except.map]
      cases then_ r with
      | error e => rfl
      | ok last => exact congrArg Except.ok (List.append_assoc out more last)

/-- What waits comes out first. -/
theorem stream_pushed (p : Parser α) :
    p.stream = ({ p with pushed := [] } : Parser α).stream.map (p.pushed ++ ·) := by
  obtain ⟨setup, scanner, state, openTags, runs, pushed, between, lineOpen, nextSerial⟩ := p
  induction pushed with
  | nil =>
    exact (follow_nil (⟨setup, scanner, state, openTags, runs, [], between, lineOpen, nextSerial⟩ :
      Parser α) stream).symm
  | cons i pushed ih =>
    let behind : Parser α :=
      ⟨setup, scanner, state, openTags, runs, pushed, between, lineOpen, nextSerial⟩
    rw [stream_of_next (p := { behind with pushed := i :: pushed }) (q := behind) rfl, ih]
    show Except.map (i :: ·) (Except.map (pushed ++ ·) _) = Except.map (i :: pushed ++ ·) _
    cases ({ behind with pushed := [] } : Parser α).stream <;> rfl

theorem setPushed_noteLine (p : Parser α) (i : Instruction α) (pushed : List (Instruction α)) :
    ({ p.noteLine i with pushed } : Parser α) = ({ p with pushed } : Parser α).noteLine i := by
  unfold noteLine
  split <;> [rfl; split <;> rfl]

theorem stream_run (h : p.Quiet) (s : Scanner) (content : String) (runs : List String) :
    (p.withRest s (content :: runs)).stream =
      follow (p.take (.run content)) fun q => (q.withRest s runs).stream := by
  have hpushed (runs : List String) : (p.withRest s runs).pushed = [] := h.pushed
  have hparse := parseNext_run (runs_withRest h.runs s (content :: runs))
  have hrest : ({ p.withRest s (content :: runs) with runs } : Parser α) = p.withRest s runs :=
    (withRest_runs h.runs s runs).symm
  dsimp only [Parser.take]
  by_cases hskip : (p.betweenParagraphs && (p.runInstruction content).discardable) = true
  · rw [hrest] at hparse
    rw [if_pos hskip, follow_nil]
    exact stream_congr (next_congr (hpushed _) (hpushed _) (hparse.trans (if_pos hskip)))
  · have hread := next_read (hpushed _) (hparse.trans (if_neg hskip))
    have hbehind : ({ p.withRest s (content :: runs) with runs, betweenParagraphs := false } :
        Parser α) = ({ p with betweenParagraphs := false } : Parser α).withRest s runs :=
      (withRest_runs (p := { p with betweenParagraphs := false }) h.runs s runs).symm
    rw [hbehind, noteLine_withRest] at hread
    rw [if_neg hskip]
    exact stream_of_next hread

theorem stream_opening (h : p.Quiet) {s t : Scanner} {tag : String} {options : Attributes}
    (hs : s.next = (.ok (some (.opening tag options)), t)) :
    (p.withRest s []).stream =
      follow (p.take (.opening tag options s.position)) fun q => (q.withRest t []).stream := by
  have hparse := parseNext_token (p := p.withRest s []) (runs_withRest h.runs s []) hs
  have hopen : (({ p.withRest s [] with scanner := t, betweenParagraphs := false } :
      Parser α).openTag tag options (p.withRest s []).scanner.position) = _ :=
    openTag_withRest { p with betweenParagraphs := false } t [] tag options s.position
  rw [onToken, hopen] at hparse
  dsimp only [Parser.take]
  cases hresult : ({ p with betweenParagraphs := false } : Parser α).openTag tag options
      s.position with
  | mk result q =>
    rw [hresult] at hparse
    cases result with
    | error e => exact stream_of_error (next_error h.pushed hparse)
    | ok i =>
      have hread := next_read (p := p.withRest s []) h.pushed hparse
      rw [noteLine_withRest] at hread
      have hwaits : ((q.noteLine i).withRest t []).pushed = q.pushed := pushed_noteLine q i
      have hbehind : ({ (q.noteLine i).withRest t [] with pushed := [] } : Parser α) =
          (({ q with pushed := [] } : Parser α).noteLine i).withRest t [] := by
        rw [← setPushed_noteLine q i []]
        rfl
      rw [stream_of_next hread, stream_pushed, hwaits, hbehind]
      unfold follow
      dsimp only
      cases ((({ q with pushed := [] } : Parser α).noteLine i).withRest t []).stream <;> rfl

theorem stream_closing (h : p.Quiet) {s t : Scanner} {tag : String}
    (hs : s.next = (.ok (some (.closing tag)), t)) :
    (p.withRest s []).stream =
      follow (p.take (.closing tag s.position)) fun q => (q.withRest t []).stream := by
  have hparse := parseNext_token (p := p.withRest s []) (runs_withRest h.runs s []) hs
  have hclose : (({ p.withRest s [] with scanner := t } : Parser α).closeTag tag
      (p.withRest s []).scanner.position) = _ := closeTag_withRest p t [] tag s.position
  rw [onToken, hclose] at hparse
  rw [take_closing]
  cases hresult : p.closeTag tag s.position with
  | mk result q =>
    rw [hresult] at hparse
    cases result with
    | error e => exact stream_of_error (next_error h.pushed hparse)
    | ok found =>
      cases found with
      | none =>
        obtain rfl := closeTag_nothing hresult
        dsimp only
        rw [follow_nil]
        exact stream_congr (next_congr h.pushed h.pushed hparse)
      | some i =>
        have hread := next_read (p := p.withRest s []) h.pushed hparse
        rw [noteLine_withRest] at hread
        exact stream_of_next hread

theorem stream_text (h : p.Quiet) {s t : Scanner} {runs : List String}
    (hs : s.next = (.ok (some (.text runs)), t)) :
    (p.withRest s []).stream = (p.withRest t (splitRuns p.setup.mode runs)).stream := by
  have hparse := parseNext_token (p := p.withRest s []) (runs_withRest h.runs s []) hs
  refine stream_congr (next_congr h.pushed h.pushed (hparse.trans ?_))
  rw [withRest_runs h.runs, withRest_runs h.runs]
  rfl

theorem stream_end (h : p.Quiet) {s t : Scanner} (hs : s.next = (.ok none, t)) :
    (p.withRest s []).stream = p.atEnd.map fun _ => [] := by
  have hparse := parseNext_token (p := p.withRest s []) (runs_withRest h.runs s []) hs
  have hend : (p.withRest s []).atEnd = p.atEnd := rfl
  rw [onToken, hend] at hparse
  unfold atEnd at hparse ⊢
  split at hparse
  · exact stream_of_end (next_end (p := p.withRest s []) h.pushed hparse)
  · exact stream_of_error (next_error (p := p.withRest s []) h.pushed hparse)

/-! ## Whole texts -/

theorem takeAll_append (p : Parser α) (pieces more : List Piece) :
    p.takeAll (pieces ++ more) =
      match p.takeAll pieces with
      | .error e => .error e
      | .ok (out, q) => (q.takeAll more).map fun (rest, r) => (out ++ rest, r) := by
  induction pieces generalizing p with
  | nil =>
    show p.takeAll more = (p.takeAll more).map fun taken => ([] ++ taken.1, taken.2)
    cases p.takeAll more <;> rfl
  | cons piece pieces ih =>
    rw [List.cons_append, takeAll, takeAll]
    cases p.take piece with
    | error e => rfl
    | ok taken =>
      obtain ⟨out, q⟩ := taken
      dsimp only
      rw [ih]
      cases q.takeAll pieces with
      | error e => rfl
      | ok taken =>
        obtain ⟨middle, r⟩ := taken
        dsimp only [Except.map]
        cases r.takeAll more with
        | error e => rfl
        | ok last => simp [List.append_assoc]

theorem takeAll_append_ok {pieces : List Piece} {out : List (Instruction α)}
    (h : p.takeAll pieces = .ok (out, q)) (more : List Piece) :
    p.takeAll (pieces ++ more) = (q.takeAll more).map fun (rest, r) => (out ++ rest, r) := by
  rw [takeAll_append, h]

theorem follow_takeAll_append (p : Parser α) (pieces more : List Piece)
    (then_ : Parser α → Except Error (List (Instruction α))) :
    follow (p.takeAll (pieces ++ more)) then_ =
      follow (p.takeAll pieces) fun q => follow (q.takeAll more) then_ := by
  induction pieces generalizing p with
  | nil => exact (follow_nil p fun q => follow (q.takeAll more) then_).symm
  | cons piece pieces ih =>
    rw [List.cons_append, follow_takeAll_cons, follow_takeAll_cons]
    exact follow_congr fun _ q _ => ih q

theorem Quiet.takeAll {pieces : List Piece} {out : List (Instruction α)} (h : p.Quiet)
    (ht : p.takeAll pieces = .ok (out, q)) : q.Quiet ∧ q.setup = p.setup := by
  induction pieces generalizing p out with
  | nil =>
    cases ht
    exact ⟨h, rfl⟩
  | cons piece pieces ih =>
    obtain ⟨first, r, more, htake, hmore, -⟩ := takeAll_cons_ok ht
    obtain ⟨hr, hsetup⟩ := (Takes.of_take h.pushed htake).quiet h
    obtain ⟨hq, hsame⟩ := ih hr hmore
    exact ⟨hq, hsame.trans hsetup⟩

theorem stream_runs (h : p.Quiet) (s : Scanner) (runs : List String) :
    (p.withRest s runs).stream =
      follow (p.takeAll (runs.map .run)) fun q => (q.withRest s []).stream := by
  induction runs generalizing p with
  | nil => exact (follow_nil p fun q => (q.withRest s []).stream).symm
  | cons content runs ih =>
    rw [stream_run h, List.map_cons, follow_takeAll_cons]
    exact follow_congr fun out q htake => ih ((Takes.of_take h.pushed htake).quiet h).1

theorem stream_token (h : p.Quiet) {s t : Scanner} {token : Token}
    (hs : s.next = (.ok (some token), t)) :
    (p.withRest s []).stream =
      follow (p.takeAll (piecesOf p.setup.mode (token, s.position)))
        fun q => (q.withRest t []).stream := by
  have hone (piece : Piece) (then_ : Parser α → Except Error (List (Instruction α))) :
      follow (p.takeAll [piece]) then_ = follow (p.take piece) then_ := by
    rw [follow_takeAll_cons]
    exact follow_congr fun _ q _ => follow_nil q then_
  cases token with
  | text runs =>
    rw [stream_text h hs, stream_runs h]
    rfl
  | opening tag options => rw [stream_opening h hs, piecesOf, hone]
  | closing tag => rw [stream_closing h hs, piecesOf, hone]

/-- What a text hands out is what is made of its pieces, if no tag is left open. -/
theorem stream_eq (h : p.Quiet) {s : Scanner} {tokens : List (Token × Nat)} (hs : Scans s tokens) :
    (p.withRest s []).stream =
      follow (p.takeAll (tokens.flatMap (piecesOf p.setup.mode)))
        fun q => q.atEnd.map fun _ => [] := by
  induction hs generalizing p with
  | nil hs =>
    rw [stream_end h hs]
    exact (follow_nil p fun q => q.atEnd.map fun _ => []).symm
  | cons hs _ ih =>
    rw [stream_token h hs, List.flatMap_cons, follow_takeAll_append]
    refine follow_congr fun out q htake => ?_
    obtain ⟨hq, hsetup⟩ := h.takeAll htake
    rw [ih hq, hsetup]

/-- A text that is read to its end has tokens. -/
theorem scans_of_stream (h : p.Quiet) {s : Scanner} {items : List (Instruction α)}
    (hs : (p.withRest s []).stream = .ok items) : ∃ tokens, Scans s tokens := by
  induction hn : s.weight using Nat.strong_induction_on generalizing p s items with
  | _ n ih =>
    cases hnext : s.next with
    | mk found t =>
      cases found with
      | error e =>
        have hparse := parseNext_token (p := p.withRest s []) (runs_withRest h.runs s []) hnext
        rw [stream_of_error (next_error (p := p.withRest s []) h.pushed hparse)] at hs
        cases hs
      | ok found =>
        cases found with
        | none => exact ⟨[], .nil hnext⟩
        | some token =>
          rw [stream_token h hnext] at hs
          unfold follow at hs
          split at hs
          · cases hs
          · next out q htake =>
            obtain ⟨more, hmore, -⟩ := exists_of_map_ok hs
            obtain ⟨tokens, htokens⟩ := ih t.weight (hn ▸ Scanner.weight_lt hnext)
              (h.takeAll htake).1 hmore rfl
            exact ⟨_, .cons hnext htokens⟩

theorem stream_ofText {text : String} {root : StyleState α} {setup : Setup α}
    {tokens : List (Token × Nat)} (hs : Scans (.ofText text) tokens) :
    (Parser.ofText text root setup).stream =
      follow ((Parser.ofText text root setup).takeAll (tokens.flatMap (piecesOf setup.mode)))
        fun q => q.atEnd.map fun _ => [] :=
  stream_eq (p := .ofText text root setup) ⟨rfl, rfl⟩ hs

end Parser

end Paragraph
end Galley
