import Galley.Error
import Galley.Markup.Entity
import Galley.Markup.Runs
import Galley.Markup.Token
import Galley.Text.Case

/-
Splits marked-up text into tokens, one at a time.  A step returns what it found together with
the scanner that goes on from there, after an error too.  `Reads n s t` says what every part of a
scanner does: it reads on in the text, and `n` measures what it uses up.  For a whole step
(`reads_next`) this is more than what was found can give rise to, which is what ends all loops over
a scanner.
-/

namespace Galley
namespace Markup

structure Scanner where
  /-- Characters not yet read. -/
  rest : List Char
  /-- Byte offset of the first of them. -/
  position : Nat := 0
  /-- Tag that a self-closing tag left to be closed. -/
  pending : Option String := none
  deriving Repr, DecidableEq

/-- Characters of tag and option names. -/
def isWord (c : Char) : Bool := c.isAlphanum || c = '_'

/-- Bytes that characters take. -/
def byteLength : List Char → Nat
  | [] => 0
  | c :: cs => c.utf8Size + byteLength cs

theorem byteLength_append (cs ds : List Char) :
    byteLength (cs ++ ds) = byteLength cs + byteLength ds := by
  induction cs with
  | nil => exact (Nat.zero_add _).symm
  | cons c cs ih => rw [List.cons_append, byteLength, ih, byteLength, Nat.add_assoc]

namespace Scanner

def ofText (text : String) : Scanner := { rest := text.toList }

def atEnd (s : Scanner) : Bool := s.pending.isNone && s.rest.isEmpty

/-- Reads on as long as a test holds. -/
def span (s : Scanner) (p : Char → Bool) : List Char × Scanner :=
  let read := s.rest.takeWhile p
  (read, { s with rest := s.rest.dropWhile p, position := s.position + byteLength read })

def skipSpace (s : Scanner) : Scanner := (s.span Text.isSpace).2

/-- Reads one given character, if it is next. -/
def accept (s : Scanner) (expected : Char) : Option Scanner :=
  match s.rest with
  | c :: cs =>
    if c = expected then some { s with rest := cs, position := s.position + c.utf8Size }
    else none
  | [] => none

/-- Stops where the scanner is. -/
def fail {β : Type} (s : Scanner) (fault : ScanFault) : Except Error β × Scanner :=
  (.error (.scan fault s.position s.rest), s)

/-- What stands between two tags or entities. -/
def scanText (s : Scanner) : Token × Scanner :=
  let (read, s) := s.span fun c => c != '<' && c != '&'
  (.text (runsOf read), s)

/-- After an ampersand.  An entity that means nothing is left unread. -/
def scanEntity (s : Scanner) : Except Error Token × Scanner :=
  let afterSign := match s.accept '#' with
    | some s => (s.accept 'x').getD s
    | none => s
  let (name, afterName) := afterSign.span isWord
  if name.isEmpty then afterName.fail .malformedEntity
  else
    let entity := s.rest.take (s.rest.length - afterName.rest.length)
    match afterName.accept ';' with
    | none => afterName.fail .unterminatedEntity
    | some done =>
      match entity? entity with
      | some c => (.ok (.text [c.toString]), done)
      | none => { done with rest := s.rest, position := s.position }.fail
          (.unknownEntity (String.ofList entity))

/-- The quote that opens a value, if one does. -/
def openQuote (s : Scanner) : Option (Char × Scanner) :=
  match s.accept '"' with
  | some inside => some ('"', inside)
  | none => (s.accept '\x27').map fun inside => ('\x27', inside)

/-- The value of an option: quoted, or up to the next space or the end of the tag. -/
def scanValue (s : Scanner) : Except Error String × Scanner :=
  match s.openQuote with
  | some (quote, inside) =>
    let (value, s) := inside.span (· != quote)
    match s.accept quote with
    | some s => (.ok (String.ofList value), s)
    | none => s.fail (.unterminatedOption quote)
  | none =>
    let (value, s) := s.span fun c => !Text.isSpace c && c != '>'
    (.ok (String.ofList value), s)

/-! ## Reading on -/

/-- Bounds how much a scanner can still yield. -/
def weight (s : Scanner) : Nat := 2 * s.rest.length + if s.pending.isSome then 1 else 0

theorem weight_le (s : Scanner) : s.weight ≤ 2 * s.rest.length + 1 := by
  unfold weight; split <;> omega

theorem length_le_weight (s : Scanner) : 2 * s.rest.length ≤ s.weight := Nat.le_add_right _ _

/-- `t` goes on behind some of what `s` has still to read, and can yield less by at least `n`. -/
def Reads (n : Nat) (s t : Scanner) : Prop :=
  ∃ read, s.rest = read ++ t.rest ∧ t.position = s.position + byteLength read ∧
    n + t.weight ≤ s.weight

namespace Reads

variable {m n : Nat} {s t u : Scanner}

theorem refl (s : Scanner) : Reads 0 s s := ⟨[], rfl, rfl, by omega⟩

theorem trans (hst : Reads m s t) (htu : Reads n t u) : Reads (m + n) s u := by
  obtain ⟨front, hs, ht, hm⟩ := hst
  obtain ⟨back, ht', hu, hn⟩ := htu
  refine ⟨front ++ back, ?_, ?_, by omega⟩
  · rw [hs, ht', List.append_assoc]
  · rw [hu, ht, byteLength_append, Nat.add_assoc]

theorem mono (h : Reads n s t) (hm : m ≤ n) : Reads m s t := by
  obtain ⟨read, hs, ht, hn⟩ := h
  exact ⟨read, hs, ht, by omega⟩

theorem on (h : Reads n s t) : Reads 0 s t := h.mono (Nat.zero_le n)

theorem weight_le (h : Reads n s t) : n + t.weight ≤ s.weight := by
  obtain ⟨-, -, -, hn⟩ := h
  exact hn

/-- A tag that is left to be closed is one more token to come. -/
theorem owing (h : Reads (n + 1) s t) (pending : Option String) :
    Reads n s { t with pending } := by
  obtain ⟨read, hs, ht, hn⟩ := h
  have howing := Scanner.weight_le { t with pending }
  have hrest := t.length_le_weight
  dsimp only at howing
  exact ⟨read, hs, ht, by omega⟩

end Reads

theorem reads_span (s : Scanner) (p : Char → Bool) :
    Reads (2 * (s.span p).1.length) s (s.span p).2 := by
  have hsplit : s.rest = s.rest.takeWhile p ++ s.rest.dropWhile p :=
    List.takeWhile_append_dropWhile.symm
  have hlength := congrArg List.length hsplit
  rw [List.length_append] at hlength
  refine ⟨s.rest.takeWhile p, hsplit, rfl, ?_⟩
  show 2 * (s.rest.takeWhile p).length + (2 * (s.rest.dropWhile p).length +
    if s.pending.isSome then 1 else 0) ≤ s.weight
  unfold weight
  omega

theorem reads_skipSpace (s : Scanner) : Reads 0 s s.skipSpace := (reads_span s Text.isSpace).on

/-- A name and the space behind it. -/
theorem reads_name (s : Scanner) :
    Reads (2 * (s.span isWord).1.length) s (s.span isWord).2.skipSpace :=
  (reads_span s isWord).trans (reads_skipSpace _)

theorem reads_accept {s t : Scanner} {c : Char} (h : s.accept c = some t) :
    Reads 2 s t ∧ t.pending = s.pending := by
  unfold accept at h
  split at h
  · next d ds hrest =>
    split at h
    · cases h
      refine ⟨⟨[d], hrest, rfl, ?_⟩, rfl⟩
      simp only [weight, hrest, List.length_cons]
      omega
    · cases h
  · cases h

theorem reads_getD_accept (s : Scanner) (c : Char) :
    Reads 0 s ((s.accept c).getD s) ∧ ((s.accept c).getD s).pending = s.pending := by
  cases h : s.accept c with
  | none => exact ⟨.refl s, rfl⟩
  | some t =>
    obtain ⟨hread, hpending⟩ := reads_accept h
    exact ⟨hread.on, hpending⟩

theorem reads_openQuote {s t : Scanner} {quote : Char} (h : s.openQuote = some (quote, t)) :
    Reads 2 s t := by
  unfold openQuote at h
  split at h
  · next inside hinside =>
    cases h
    exact (reads_accept hinside).1
  · obtain ⟨inside, hinside, heq⟩ := Option.map_eq_some_iff.1 h
    cases heq
    exact (reads_accept hinside).1

theorem reads_scanValue (s : Scanner) : Reads 0 s s.scanValue.2 := by
  unfold scanValue
  split
  · next quote inside hopen =>
    have hinside := (reads_openQuote hopen).trans (reads_span inside (· != quote))
    dsimp only
    split
    · next t ht => exact (hinside.trans (reads_accept ht).1).on
    · exact hinside.on
  · exact (reads_span s _).on

/-- An option up to the end of its value. -/
theorem reads_option {s afterSign : Scanner}
    (hs : (s.span isWord).2.skipSpace.accept '=' = some afterSign) :
    Reads 2 s afterSign.skipSpace.scanValue.2 :=
  (reads_name s).on.trans ((reads_accept hs).1.trans
    ((reads_skipSpace afterSign).trans (reads_scanValue _))) |>.mono (by omega)

theorem length_option {s afterSign afterValue : Scanner} {value : Except Error String}
    (hs : (s.span isWord).2.skipSpace.accept '=' = some afterSign)
    (hv : afterSign.skipSpace.scanValue = (value, afterValue)) :
    afterValue.skipSpace.rest.length < s.rest.length := by
  have hread := (reads_option hs).trans (reads_skipSpace _)
  rw [hv] at hread
  have hle := hread.weight_le
  have hbound := s.weight_le
  have hrest := afterValue.skipSpace.length_le_weight
  dsimp only at hle
  omega

/-- Options up to the end of a tag; a name written again takes the later value. -/
def scanOptions (s : Scanner) (found : Attributes) : Except Error Attributes × Scanner :=
  if (s.span isWord).1.isEmpty then (.ok found, s)
  else
    let name := Text.lowercase (s.span isWord).1
    match hs : (s.span isWord).2.skipSpace.accept '=' with
    | none => (s.span isWord).2.skipSpace.fail (.optionWithoutValue name)
    | some afterSign =>
      match hv : afterSign.skipSpace.scanValue with
      | (.error e, s) => (.error e, s)
      | (.ok value, afterValue) =>
        have : afterValue.skipSpace.rest.length < s.rest.length := length_option hs hv
        scanOptions afterValue.skipSpace (found.insert name value)
termination_by s.rest.length

theorem reads_scanOptions (s : Scanner) (found : Attributes) :
    Reads 0 s (s.scanOptions found).2 := by
  fun_induction scanOptions s found with
  | case1 => exact .refl _
  | case2 s found => exact (reads_name s).on
  | case3 s found _ afterSign hs e t hv =>
    have hread := reads_option hs
    rw [hv] at hread
    exact hread.on
  | case4 s found _ name afterSign hs value t hv hlt ih =>
    have hread := reads_option hs
    rw [hv] at hread
    exact (hread.trans ((reads_skipSpace t).trans ih)).on

/-- After the sign that opens a tag. -/
def scanOpenTag (s : Scanner) : Except Error Token × Scanner :=
  let (name, s) := s.span isWord
  let tag := Text.lowercase name
  if name.isEmpty then s.fail .openTagWithoutName
  else
    match s.skipSpace.scanOptions .empty with
    | (.error e, s) => (.error e, s)
    | (.ok options, s) =>
      let slash := s.accept '/'
      let s := slash.getD s
      match s.accept '>' with
      | none => s.fail (.unclosedTag tag)
      | some s =>
        let pending := if slash.isSome then some tag else s.pending
        (.ok (.opening tag options), { s with pending })

/-- After the signs that open an end tag. -/
def scanEndTag (s : Scanner) : Except Error Token × Scanner :=
  let (name, s) := s.span isWord
  let tag := Text.lowercase name
  if name.isEmpty then s.fail .endTagWithoutName
  else
    match s.skipSpace.accept '>' with
    | none => s.skipSpace.fail (.unclosedEndTag tag)
    | some s => (.ok (.closing tag), s)

/-- The next token, or nothing at the end of the text. -/
def next (s : Scanner) : Except Error (Option Token) × Scanner :=
  match s.pending with
  | some tag => (.ok (some (.closing tag)), { s with pending := none })
  | none =>
    match s.rest with
    | [] => (.ok none, s)
    | _ :: _ =>
      match s.accept '<' with
      | some inTag =>
        let (token, s) := match inTag.accept '/' with
          | some inEnd => inEnd.scanEndTag
          | none => inTag.scanOpenTag
        (token.map some, s)
      | none =>
        match s.accept '&' with
        | some inEntity =>
          let (token, s) := inEntity.scanEntity
          (token.map some, s)
        | none =>
          let (token, s) := s.scanText
          (.ok (some token), s)

end Scanner

/-- Bounds the instructions that one token can give rise to, less one. -/
def Token.size : Token → Nat
  | .text runs => runsSize runs
  | .opening .. => 2
  | .closing _ => 0

namespace Scanner

/-! ## Progress -/

/-- What finding this uses up at least: the token itself and all that it can give rise to. -/
def worth : Except Error Token → Nat
  | .ok token => token.size + 1
  | .error _ => 0

theorem reads_scanOpenTag (s : Scanner) : Reads (worth s.scanOpenTag.1) s s.scanOpenTag.2 := by
  unfold scanOpenTag
  dsimp only
  split
  · exact (reads_span s isWord).on
  · next hname =>
    have hname := List.length_pos_iff.2 fun h => hname (List.isEmpty_iff.2 h)
    have hread := (reads_name s).trans (reads_scanOptions (s.span isWord).2.skipSpace .empty)
    split
    · next e t ht =>
      rw [ht] at hread
      exact hread.on
    · next options t ht =>
      rw [ht] at hread
      have hslash := hread.trans (reads_getD_accept t '/').1
      split
      · exact hslash.on
      · next u hu =>
        have hsign := hslash.trans (reads_accept hu).1
        exact .owing (hsign.mono (by simp only [worth, Token.size]; omega)) _

theorem reads_scanEndTag (s : Scanner) : Reads (worth s.scanEndTag.1) s s.scanEndTag.2 := by
  unfold scanEndTag
  dsimp only
  split
  · exact (reads_span s isWord).on
  · split
    · exact (reads_name s).on
    · next t ht =>
      exact ((reads_name s).trans (reads_accept ht).1).mono
        (by simp only [worth, Token.size]; omega)

/-- Behind the sign of a number, if there is one. -/
def behindSign (s : Scanner) : Scanner :=
  match s.accept '#' with
  | some s => (s.accept 'x').getD s
  | none => s

theorem scanEntity_eq (s : Scanner) : s.scanEntity =
    if (s.behindSign.span isWord).1.isEmpty then
      (s.behindSign.span isWord).2.fail .malformedEntity
    else
      match (s.behindSign.span isWord).2.accept ';' with
      | none => (s.behindSign.span isWord).2.fail .unterminatedEntity
      | some done =>
        let name := s.rest.take (s.rest.length - (s.behindSign.span isWord).2.rest.length)
        match entity? name with
        | some c => (.ok (.text [c.toString]), done)
        | none => { done with rest := s.rest, position := s.position }.fail
            (.unknownEntity (String.ofList name)) :=
  rfl

theorem reads_behindSign (s : Scanner) :
    Reads 0 s s.behindSign ∧ s.behindSign.pending = s.pending := by
  unfold behindSign
  split
  · next t ht =>
    obtain ⟨hread, hpending⟩ := reads_accept ht
    obtain ⟨hmore, hsame⟩ := reads_getD_accept t 'x'
    exact ⟨(hread.trans hmore).on, hsame.trans hpending⟩
  · exact ⟨.refl s, rfl⟩

theorem reads_scanEntity (s : Scanner) : Reads (worth s.scanEntity.1) s s.scanEntity.2 := by
  obtain ⟨hsign, hpending⟩ := reads_behindSign s
  have hread := hsign.trans (reads_span s.behindSign isWord)
  rw [scanEntity_eq]
  split
  · exact hread.on
  · split
    · exact hread.on
    · next done hdone =>
      obtain ⟨hend, hsame⟩ := reads_accept hdone
      dsimp only
      split
      · next c hc =>
        have hsize : Token.size (.text [c.toString]) = 1 := by
          simp [Token.size, runsSize, Char.toString]
        exact (hread.trans hend).mono (by simp only [worth, hsize]; omega)
      · -- an entity that means nothing is left to be read again
        have hback : { done with rest := s.rest, position := s.position } = s := by
          obtain ⟨rest, position, pending⟩ := done
          rw [show pending = s.pending from hsame.trans hpending]
        rw [hback]
        exact .refl s

theorem reads_scanText {s : Scanner} {c : Char} {cs : List Char} (hs : s.rest = c :: cs)
    (htag : c ≠ '<') (hentity : c ≠ '&') : Reads (s.scanText.1.size + 1) s s.scanText.2 := by
  have hpos : 0 < (s.span fun c => c != '<' && c != '&').1.length := by
    simp [span, hs, htag, hentity]
  have hsize := runsSize_runsOf_le (s.span fun c => c != '<' && c != '&').1
  exact (reads_span s _).mono (by simp only [scanText, Token.size]; omega)

/-- What a step uses up at least. -/
def cost : Except Error (Option Token) → Nat
  | .ok (some token) => token.size + 1
  | .ok none => 0
  | .error _ => 1

theorem cost_map_le (found : Except Error Token) : cost (found.map some) ≤ 2 + worth found := by
  cases found with
  | ok token => exact Nat.le_add_left _ _
  | error e => exact Nat.le_succ 1

theorem reads_next (s : Scanner) : Reads (cost s.next.1) s s.next.2 := by
  unfold next
  split
  · next tag hp => exact ⟨[], rfl, rfl, by simp [cost, Token.size, weight, hp, Nat.add_comm]⟩
  · split
    · exact .refl s
    · next c cs hrest =>
      split
      · next inTag htag =>
        have hopen := (reads_accept htag).1
        dsimp only
        split
        · next inEnd hend =>
          have hcost := cost_map_le inEnd.scanEndTag.1
          exact (hopen.trans ((reads_accept hend).1.trans (reads_scanEndTag inEnd))).mono
            (by omega)
        · exact (hopen.trans (reads_scanOpenTag inTag)).mono (cost_map_le _)
      · next htag =>
        split
        · next inEntity hentity =>
          exact ((reads_accept hentity).1.trans (reads_scanEntity inEntity)).mono (cost_map_le _)
        · next hentity =>
          refine reads_scanText hrest (fun hc => ?_) (fun hc => ?_)
          · simp [accept, hrest, hc] at htag
          · simp [accept, hrest, hc] at hentity

theorem weight_next_le (s : Scanner) : s.next.2.weight ≤ s.weight :=
  Nat.le_of_add_left_le (reads_next s).weight_le

/-- Every token uses up more input than it can give rise to. -/
theorem size_add_weight_lt {s t : Scanner} {token : Token}
    (h : s.next = (.ok (some token), t)) : token.size + t.weight < s.weight := by
  have hle := (reads_next s).weight_le
  rw [h] at hle
  dsimp only [cost] at hle
  omega

theorem weight_lt {s t : Scanner} {token : Token} (h : s.next = (.ok (some token), t)) :
    t.weight < s.weight := by
  have := size_add_weight_lt h
  omega

/-- All tokens up to the end or the first error, and where the scanner stopped. -/
def tokens (s : Scanner) : List (Except Error Token) × Scanner :=
  match h : s.next with
  | (.ok none, t) => ([], t)
  | (.error e, t) => ([.error e], t)
  | (.ok (some token), t) =>
    have : t.weight < s.weight := weight_lt h
    let (more, last) := tokens t
    (.ok token :: more, last)
termination_by s.weight

end Scanner
end Markup
end Galley
