import Galley.Markup.Scanner
import Galley.Paragraph.Source

/-
Turns marked-up text into instructions.  The parser owns the chain of style states: a tag that
opens derives a state, and its end tag goes back to the enclosing one.  It is a stream of
instructions that can be given back to.
-/

namespace Galley
namespace Paragraph

open Font Markup Style

/-- Where lines may be broken. -/
inductive WrapMode where
  /-- At white space and at runs of hyphens and dashes. -/
  | word
  /-- After any character. -/
  | character
  deriving Repr, DecidableEq, Inhabited

namespace WrapMode

def words : List (String × WrapMode) := [("word", word), ("character", character)]

def name : WrapMode → String
  | word => "word"
  | character => "character"

end WrapMode

/-- What an open tag is closed with. -/
inductive Scope where
  | inline
  | block
  | link
  deriving Repr, DecidableEq

structure OpenTag (α : Type) where
  tag : String
  scope : Scope
  /-- State to go back to. -/
  enclosing : StyleState α
  /-- Byte offset of the tag. -/
  position : Nat

/-- What markup is read with. -/
structure Setup (α : Type) where
  fonts : FontService α
  registry : Registry α
  mode : WrapMode

structure Parser (α : Type) where
  setup : Setup α
  scanner : Scanner
  /-- State that text is written under. -/
  state : StyleState α
  /-- Tags not yet closed, innermost first. -/
  openTags : List (OpenTag α) := []
  /-- Runs of the current text not yet read. -/
  runs : List String := []
  /-- Instructions that were given back, to come out before anything else. -/
  pushed : List (Instruction α) := []
  /-- At the start of the text or after a paragraph: white space is passed over. -/
  betweenParagraphs : Bool := true
  /-- Something visible was read since the last forced break. -/
  lineOpen : Bool := false
  /-- Serial of the next state that is derived. -/
  nextSerial : Nat := 1

namespace Parser

section

variable {α : Type}

def ofText (text : String) (root : StyleState α) (setup : Setup α) : Parser α :=
  { setup, scanner := .ofText text, state := root, nextSerial := root.serial + 1 }

/-- Runs as they are read: whole, or character by character. -/
def splitRuns (mode : WrapMode) (runs : List String) : List String :=
  match mode with
  | .word => runs
  | .character => runs.flatMap fun run =>
    if run = " " then [run] else run.toList.map Char.toString

theorem length_splitRuns_le (mode : WrapMode) (runs : List String) :
    (splitRuns mode runs).length ≤ runsSize runs := by
  cases mode with
  | word =>
    induction runs with
    | nil => simp [splitRuns]
    | cons r rest ih =>
      simp only [splitRuns, runsSize, List.length_cons] at *
      omega
  | character =>
    induction runs with
    | nil => simp [splitRuns]
    | cons r rest ih =>
      have hr : (if r = " " then [r] else r.toList.map Char.toString).length ≤
          max 1 r.length := by
        split
        · exact Nat.le_max_left 1 _
        · rw [List.length_map, String.length_toList]
          exact Nat.le_max_right 1 _
      simp only [splitRuns, runsSize, List.flatMap_cons, List.length_append] at *
      omega

/-- Bounds the instructions still to come. -/
def remaining (p : Parser α) : Nat := p.pushed.length + p.runs.length + p.scanner.weight

def push (i : Instruction α) (p : Parser α) : Parser α := { p with pushed := i :: p.pushed }

end

variable {α : Type} [Scalar α]

/-- An instruction under the current state. -/
def instruction (p : Parser α) (kind : Kind α) : Instruction α :=
  .ofKind kind p.state p.setup.fonts

/-- A run of text.  Where lines break after any character, only white space needs no mark. -/
def runInstruction (p : Parser α) (run : String) : Instruction α :=
  let i := Instruction.ofText run p.state p.setup.fonts
  if p.setup.mode = .character && !i.discardable then i.breakable else i

/-- The kind and scope of an opening tag that is not void. -/
def openingKind (p : Parser α) (tag : String) (style : TagStyle α) (options : Attributes)
    (child : StyleState α) : Except Error (Kind α × Scope) :=
  if style.display = .block then
    match style.indent with
    | some measure =>
      (measure.resolve (child.indentContext p.setup.registry)).map fun indent =>
        (.paragraphStart indent, .block)
    | none => .ok (.paragraphStart 0, .block)
  else if options.contains "target" || options.contains "anchor" then
    .ok (.linkStart (options.find? "anchor") (options.find? "target"), .link)
  else .ok (.tagOpen tag, .inline)

/-- Enters the scope of a tag.  A block inside a line ends that line first: the break is read
under the enclosing state, and the start of the block after it. -/
def enter (p : Parser α) (tag : String) (position : Nat) (kind : Kind α) (scope : Scope)
    (child : StyleState α) : Instruction α × Parser α :=
  let inside := { p with
    state := child
    openTags := { tag, scope, enclosing := p.state, position } :: p.openTags }
  let i := inside.instruction kind
  if scope = .block && p.lineOpen then (p.instruction .lineBreak, inside.push i)
  else (i, inside)

/-- The style of an opening tag with its options applied, and the options by their logical
names. -/
def resolveTag (p : Parser α) (tag : String) (raw : Attributes) (position : Nat) :
    Except Error (TagStyle α × Attributes) :=
  match p.setup.registry.find? tag with
  | none => .error (.nesting .unknownTag tag position)
  | some registered =>
    (registered.withOptions (registered.resolveOptions raw)).map fun style =>
      (style, registered.resolveOptions raw)

/-- A tag that is not void derives a state and enters its scope. -/
def openScope (p : Parser α) (tag : String) (style : TagStyle α) (options : Attributes)
    (position : Nat) : Except Error (Instruction α) × Parser α :=
  match p.state.derive p.nextSerial style p.setup.fonts p.setup.registry with
  | .error e => (.error e, p)
  | .ok child =>
    match p.openingKind tag style options child with
    | .error e => (.error e, p)
    | .ok (kind, scope) =>
      let entered := { p with nextSerial := p.nextSerial + 1 }.enter tag position kind scope child
      (.ok entered.1, entered.2)

/-- An opening tag.  A void tag is a break of its own. -/
def openTag (p : Parser α) (tag : String) (raw : Attributes) (position : Nat) :
    Except Error (Instruction α) × Parser α :=
  match p.resolveTag tag raw position with
  | .error e => (.error e, p)
  | .ok (style, options) =>
    match style.display with
    | .lineBreak => (.ok (p.instruction .lineBreak), p)
    | .pageBreak => (.ok (p.instruction .pageBreak), p)
    | .inline | .block => p.openScope tag style options position

/-- What the end tag of a scope is read as. -/
def closingKind (tag : String) : Scope → Kind α
  | .inline => .tagClose tag
  | .link => .linkEnd
  | .block => .paragraphEnd

/-- An end tag.  It has to match the innermost open tag, which is closed even if it does not;
the end tag of a void tag is passed over. -/
def closeTag (p : Parser α) (tag : String) (position : Nat) :
    Except Error (Option (Instruction α)) × Parser α :=
  if p.setup.registry.isVoid tag then (.ok none, p)
  else match p.openTags with
    | [] => (.error (.nesting .nothingOpen tag position), p)
    | opened :: openTags =>
      if opened.tag = tag then
        (.ok (some (p.instruction (closingKind tag opened.scope))),
          { p with
            openTags
            state := opened.enclosing
            betweenParagraphs := p.betweenParagraphs || opened.scope = .block })
      else (.error (.nesting .mismatched tag position), { p with openTags })

/-- What the end of the text means: nothing more, or an error at the innermost open tag. -/
def atEnd (p : Parser α) : Except Error (Option (Instruction α)) :=
  match p.openTags with
  | [] => .ok none
  | opened :: _ => .error (.nesting .unclosed opened.tag opened.position)

theorem remaining_enter_le (p : Parser α) (tag : String) (position : Nat) (kind : Kind α)
    (scope : Scope) (child : StyleState α) :
    (p.enter tag position kind scope child).2.remaining ≤ p.remaining + 1 := by
  unfold enter
  dsimp only
  split <;> simp only [push, remaining, List.length_cons] <;> omega

theorem remaining_openScope_le (p : Parser α) (tag : String) (style : TagStyle α)
    (options : Attributes) (position : Nat) :
    (p.openScope tag style options position).2.remaining ≤ p.remaining + 1 := by
  unfold openScope
  split
  · exact Nat.le_succ _
  · split
    · exact Nat.le_succ _
    · exact remaining_enter_le { p with nextSerial := p.nextSerial + 1 } tag position _ _ _

/-- An opening tag leaves at most one instruction to be read after it. -/
theorem remaining_openTag_le (p : Parser α) (tag : String) (raw : Attributes)
    (position : Nat) :
    (p.openTag tag raw position).2.remaining ≤ p.remaining + 1 := by
  unfold openTag
  split
  · exact Nat.le_succ _
  · split
    · exact Nat.le_succ _
    · exact Nat.le_succ _
    · exact remaining_openScope_le p tag _ _ position
    · exact remaining_openScope_le p tag _ _ position

theorem remaining_closeTag (p : Parser α) (tag : String) (position : Nat) :
    (p.closeTag tag position).2.remaining = p.remaining := by
  unfold closeTag remaining
  grind

/-- Reads on in the text until there is an instruction. -/
def parseNext (p : Parser α) : Except Error (Option (Instruction α)) × Parser α :=
  match hr : p.runs with
  | run :: runs =>
    let i := p.runInstruction run
    if p.betweenParagraphs && i.discardable then
      have : { p with runs }.remaining < p.remaining := by simp [remaining, hr]
      parseNext { p with runs }
    else (.ok (some i), { p with runs, betweenParagraphs := false })
  | [] =>
    match hs : p.scanner.next with
    | (.error e, scanner) => (.error e, { p with scanner })
    | (.ok none, scanner) => (p.atEnd, { p with scanner })
    | (.ok (some (.text runs)), scanner) =>
      have : { p with scanner, runs := splitRuns p.setup.mode runs }.remaining < p.remaining := by
        have h1 := Scanner.size_add_weight_lt hs
        have h2 := length_splitRuns_le p.setup.mode runs
        simp only [Token.size] at h1
        simp only [remaining]
        omega
      parseNext { p with scanner, runs := splitRuns p.setup.mode runs }
    | (.ok (some (.opening tag options)), scanner) =>
      let (i, q) := { p with scanner, betweenParagraphs := false }.openTag tag options
        p.scanner.position
      (i.map some, q)
    | (.ok (some (.closing tag)), scanner) =>
      match hc : { p with scanner }.closeTag tag p.scanner.position with
      | (.ok none, q) =>
        have : q.remaining < p.remaining := by
          have h1 := Scanner.size_add_weight_lt hs
          have h2 := remaining_closeTag { p with scanner } tag p.scanner.position
          rw [hc] at h2
          simp only [Token.size] at h1
          simp only [remaining] at h2 ⊢
          omega
        parseNext q
      | (.ok (some i), q) => (.ok (some i), q)
      | (.error e, q) => (.error e, q)
termination_by p.remaining

/-- Takes note of what a freshly read instruction does to the line. -/
def noteLine (p : Parser α) (i : Instruction α) : Parser α :=
  if i.isForcedBreak then { p with lineOpen := false }
  else if i.isVisible then { p with lineOpen := true }
  else p

/-- The next instruction, or nothing at the end of the text. -/
def next (p : Parser α) : Except Error (Option (Instruction α)) × Parser α :=
  match p.pushed with
  | i :: pushed => (.ok (some i), { p with pushed })
  | [] =>
    match p.parseNext with
    | (.ok (some i), p) => (.ok (some i), p.noteLine i)
    | (r, p) => (r, p)

/-- The next instruction, which stays to be read. -/
def peek (p : Parser α) : Except Error (Option (Instruction α)) × Parser α :=
  match p.pushed with
  | i :: _ => (.ok (some i), p)
  | [] =>
    match p.next with
    | (.ok (some i), p) => (.ok (some i), p.push i)
    | (r, p) => (r, p)

/-- Nothing is left to be read. -/
def atEos (p : Parser α) : Except Error Bool × Parser α :=
  let (r, p) := p.peek
  (r.map Option.isNone, p)

/-! ## Reading ends -/

@[simp] theorem remaining_noteLine (p : Parser α) (i : Instruction α) :
    (p.noteLine i).remaining = p.remaining := by
  unfold noteLine remaining
  grind

/-- Reading on uses up what it reads, and more than nothing if it finds an instruction. -/
theorem remaining_parseNext (p : Parser α) :
    p.parseNext.2.remaining ≤ p.remaining ∧
      ∀ i, p.parseNext.1 = .ok (some i) → p.parseNext.2.remaining < p.remaining := by
  fun_induction parseNext p with
  | case1 p run runs hr i hskip hlt ih =>
    exact ⟨by omega, fun j hj => by have := ih.2 j hj; omega⟩
  | case2 p run runs hr i hkeep =>
    have : { p with runs, betweenParagraphs := false }.remaining < p.remaining := by
      simp [remaining, hr]
    exact ⟨Nat.le_of_lt this, fun _ _ => this⟩
  | case3 p hr e scanner hs =>
    have := Scanner.weight_next_le p.scanner
    rw [hs] at this
    exact ⟨by simp only [remaining] at *; omega, by simp⟩
  | case4 p hr scanner hs =>
    have := Scanner.weight_next_le p.scanner
    rw [hs] at this
    refine ⟨by simp only [remaining] at *; omega, fun i hi => ?_⟩
    unfold atEnd at hi
    split at hi <;> simp at hi
  | case5 p hr runs scanner hs hlt ih =>
    exact ⟨by omega, fun j hj => by have := ih.2 j hj; omega⟩
  | case6 p hr tag options scanner hs i q hq =>
    have h1 := Scanner.size_add_weight_lt hs
    have h2 := remaining_openTag_le { p with scanner, betweenParagraphs := false } tag options
      p.scanner.position
    rw [hq] at h2
    have : q.remaining < p.remaining := by
      simp only [Token.size] at h1
      simp only [remaining] at h2 ⊢
      omega
    exact ⟨Nat.le_of_lt this, fun _ _ => this⟩
  | case7 p hr tag scanner hs q hc hlt ih =>
    exact ⟨by omega, fun j hj => by have := ih.2 j hj; omega⟩
  | case8 p hr tag scanner hs i q hc =>
    have h1 := Scanner.size_add_weight_lt hs
    have h2 := remaining_closeTag { p with scanner } tag p.scanner.position
    rw [hc] at h2
    have : q.remaining < p.remaining := by
      simp only [Token.size] at h1
      simp only [remaining] at h2 ⊢
      omega
    exact ⟨Nat.le_of_lt this, fun _ _ => this⟩
  | case9 p hr tag scanner hs e q hc =>
    have h1 := Scanner.size_add_weight_lt hs
    have h2 := remaining_closeTag { p with scanner } tag p.scanner.position
    rw [hc] at h2
    have : q.remaining < p.remaining := by
      simp only [Token.size] at h1
      simp only [remaining] at h2 ⊢
      omega
    exact ⟨Nat.le_of_lt this, by simp⟩

theorem remaining_next (p : Parser α) :
    p.next.2.remaining ≤ p.remaining ∧
      ∀ i, p.next.1 = .ok (some i) → p.next.2.remaining < p.remaining := by
  have h := remaining_parseNext p
  unfold next
  split
  · next i pushed hp =>
    have : { p with pushed }.remaining < p.remaining := by simp [remaining, hp]
    exact ⟨Nat.le_of_lt this, fun _ _ => this⟩
  · next hp =>
    split
    · next i q hq =>
      rw [hq] at h
      simp only [remaining_noteLine]
      exact ⟨h.1, fun _ _ => h.2 i rfl⟩
    · next r q hq hne =>
      rw [hne] at h
      exact h

instance : Source (Parser α) α where
  next := next
  giveBack := push
  remaining := remaining
  remaining_next_le p := (remaining_next p).1
  remaining_next_lt p := (remaining_next p).2
  remaining_giveBack_le i p := by simp [push, remaining]; omega

theorem remaining_peek_le (p : Parser α) : p.peek.2.remaining ≤ p.remaining := by
  have h := remaining_next p
  unfold peek
  split
  · exact Nat.le_refl _
  · split
    · next i q hq =>
      rw [hq] at h
      have := h.2 i rfl
      simp only [push, remaining, List.length_cons] at *
      omega
    · next r q hne hq =>
      rw [hq] at h
      exact h.1

/-- What was peeked at is read next. -/
theorem next_peek {p q : Parser α} {i : Instruction α} (h : p.peek = (.ok (some i), q)) :
    ∃ r, q.next = (.ok (some i), r) := by
  unfold peek at h
  split at h
  · next j pushed hp =>
    cases h
    exact ⟨{ p with pushed }, by simp [next, hp]⟩
  · split at h
    · next j r hr =>
      cases h
      exact ⟨r, by simp [next, push]⟩
    · next r q' hne hq =>
      cases h
      exact absurd rfl (hne i)

end Parser
end Paragraph
end Galley
