import Galley.Proofs.Everywhere
import Galley.Proofs.Paragraph.Pieces

/-
Which texts nest.

The tags of a text that are not void are brackets, and a text is read to its end if each tag that it
opens is registered and its brackets form a balanced word.  Otherwise the first token that does not
fit is reported, or, where all fit, the innermost tag left open, at its place in the text.

A parser's open tags are a stack, and `nestAll` runs that stack over the tokens alone.  It is equal
to the parser (`takeAll_nests`), and what it accepts is given by a grammar (`nestAll_eq_ok_iff`,
`nestAll_eq_error_iff`).
-/

namespace Galley
namespace Paragraph

open Font Markup Style

variable {α : Type}

/-! ## The grammar -/

/-- A tag that opens a scope, or the end of one. -/
inductive Bracket where
  | opens (tag : String)
  | closes (tag : String)

/-- The bracket that a token is.  Text and void tags are none. -/
def bracketOf? (registry : Registry α) : Token × Nat → Option (Bracket × Nat)
  | (.text _, _) => none
  | (.opening tag _, position) =>
    if registry.isVoid tag then none else some (.opens tag, position)
  | (.closing tag, position) =>
    if registry.isVoid tag then none else some (.closes tag, position)

/-- The brackets of a text at their places. -/
def bracketsOf (registry : Registry α) (tokens : List (Token × Nat)) : List (Bracket × Nat) :=
  tokens.filterMap (bracketOf? registry)

inductive BalancedWord : List (Bracket × Nat) → Prop where
  | nil : BalancedWord []
  | element {tag : String} {first last : Nat} {body rest : List (Bracket × Nat)}
      (hbody : BalancedWord body) (hrest : BalancedWord rest) :
      BalancedWord ((.opens tag, first) :: (body ++ (.closes tag, last) :: rest))

/-- `LeavesOpen word tags`: the word is balanced but for these tags, which are left open, each with
its place and the innermost first. -/
inductive LeavesOpen : List (Bracket × Nat) → List (String × Nat) → Prop where
  | balanced {word : List (Bracket × Nat)} (h : BalancedWord word) : LeavesOpen word []
  | scope {front body : List (Bracket × Nat)} {tags : List (String × Nat)} {tag : String}
      {position : Nat} (h : LeavesOpen front tags) (hbody : BalancedWord body) :
      LeavesOpen (front ++ (.opens tag, position) :: body) ((tag, position) :: tags)

/-- Each tag that is opened is registered. -/
def AllRegistered (registry : Registry α) (tokens : List (Token × Nat)) : Prop :=
  ∀ tag options position, (Token.opening tag options, position) ∈ tokens →
    (registry.find? tag).isSome = true

/-- The tokens fit so far, and leave these tags open. -/
structure FitsSoFar (registry : Registry α) (tokens : List (Token × Nat))
    (tags : List (String × Nat)) : Prop where
  registered : AllRegistered registry tokens
  leaves : LeavesOpen (bracketsOf registry tokens) tags

/-- `Offends registry tags token e`: the token does not fit where these tags are open. -/
inductive Offends (registry : Registry α) : List (String × Nat) → Token × Nat → Error → Prop where
  | unknown {tags : List (String × Nat)} {tag : String} {options : Attributes} {position : Nat}
      (htag : registry.find? tag = none) :
      Offends registry tags (.opening tag options, position) (.nesting .unknownTag tag position)
  | nothingOpen {tag : String} {position : Nat} (hv : registry.isVoid tag = false) :
      Offends registry [] (.closing tag, position) (.nesting .nothingOpen tag position)
  | mismatched {tags : List (String × Nat)} {tag innermost : String} {position place : Nat}
      (hv : registry.isVoid tag = false) (htag : innermost ≠ tag) :
      Offends registry ((innermost, place) :: tags) (.closing tag, position)
        (.nesting .mismatched tag position)

/-- The error of the first token that does not fit or, where all fit, of the end of the text. -/
inductive FirstOffence (registry : Registry α) (tokens : List (Token × Nat)) : Error → Prop where
  | token {front back : List (Token × Nat)} {token : Token × Nat} {tags : List (String × Nat)}
      {e : Error} (htokens : tokens = front ++ token :: back)
      (hfront : FitsSoFar registry front tags) (h : Offends registry tags token e) :
      FirstOffence registry tokens e
  | unclosed {innermost : String} {place : Nat} {tags : List (String × Nat)}
      (h : FitsSoFar registry tokens ((innermost, place) :: tags)) :
      FirstOffence registry tokens (.nesting .unclosed innermost place)

/-! ## The stack -/

/-- What a bracket does to the open tags. -/
def nest (tags : List (String × Nat)) : Bracket × Nat → Except Error (List (String × Nat))
  | (.opens tag, position) => .ok ((tag, position) :: tags)
  | (.closes tag, position) =>
    match tags with
    | [] => .error (.nesting .nothingOpen tag position)
    | (innermost, _) :: tags =>
      if innermost = tag then .ok tags else .error (.nesting .mismatched tag position)

/-- The error of a tag that is opened and not registered. -/
def unknown? (registry : Registry α) : Token × Nat → Option Error
  | (.opening tag _, position) =>
    if (registry.find? tag).isSome then none else some (.nesting .unknownTag tag position)
  | _ => none

/-- What a token does to the open tags. -/
def nestToken (registry : Registry α) (tags : List (String × Nat)) (token : Token × Nat) :
    Except Error (List (String × Nat)) :=
  match unknown? registry token with
  | some e => .error e
  | none =>
    match bracketOf? registry token with
    | none => .ok tags
    | some bracket => nest tags bracket

theorem nestToken_opening (registry : Registry α) (tags : List (String × Nat)) (tag : String)
    (options : Attributes) (position : Nat) :
    nestToken registry tags (.opening tag options, position) =
      if (registry.find? tag).isSome then
        .ok (if registry.isVoid tag then tags else (tag, position) :: tags)
      else .error (.nesting .unknownTag tag position) := by
  dsimp only [nestToken, unknown?, bracketOf?]
  cases (registry.find? tag).isSome <;> cases registry.isVoid tag <;> rfl

theorem nestToken_closing (registry : Registry α) (tags : List (String × Nat)) (tag : String)
    (position : Nat) :
    nestToken registry tags (.closing tag, position) =
      if registry.isVoid tag then .ok tags else nest tags (.closes tag, position) := by
  dsimp only [nestToken, unknown?, bracketOf?]
  cases registry.isVoid tag <;> rfl

def nestAll (registry : Registry α) (tags : List (String × Nat)) (tokens : List (Token × Nat)) :
    Except Error (List (String × Nat)) :=
  tokens.foldlM (nestToken registry) tags

/-- What the end of the text makes of the open tags. -/
def closeAll : List (String × Nat) → Except Error Unit
  | [] => .ok ()
  | (innermost, place) :: _ => .error (.nesting .unclosed innermost place)

namespace BalancedWord

theorem append {word more : List (Bracket × Nat)} (h : BalancedWord word)
    (hmore : BalancedWord more) : BalancedWord (word ++ more) := by
  induction h with
  | nil => exact hmore
  | element hbody _ _ ih =>
    rw [List.cons_append, List.append_assoc, List.cons_append]
    exact .element hbody ih

/-- A balanced word leaves the stack as it is. -/
theorem nest {word : List (Bracket × Nat)} (h : BalancedWord word) (tags : List (String × Nat)) :
    word.foldlM Paragraph.nest tags = .ok tags := by
  induction h generalizing tags with
  | nil => rfl
  | @element tag first last body rest _ _ ihbody ihrest =>
    have hopen : Paragraph.nest tags (.opens tag, first) = .ok ((tag, first) :: tags) := rfl
    have hclose : Paragraph.nest ((tag, first) :: tags) (.closes tag, last) = .ok tags :=
      if_pos rfl
    rw [List.foldlM_cons, hopen]
    show (body ++ (.closes tag, last) :: rest).foldlM Paragraph.nest ((tag, first) :: tags) = _
    rw [List.foldlM_append, ihbody]
    show ((.closes tag, last) :: rest).foldlM Paragraph.nest ((tag, first) :: tags) = _
    rw [List.foldlM_cons, hclose]
    exact ihrest tags

end BalancedWord

namespace LeavesOpen

variable {word more : List (Bracket × Nat)} {tags left : List (String × Nat)} {tag : String}
  {position place : Nat}

theorem append (h : LeavesOpen word tags) (hmore : BalancedWord more) :
    LeavesOpen (word ++ more) tags := by
  cases h with
  | balanced h => exact .balanced (h.append hmore)
  | scope h hbody =>
    rw [List.append_assoc, List.cons_append]
    exact .scope h (hbody.append hmore)

theorem closed (h : LeavesOpen word []) : BalancedWord word := by
  cases h with
  | balanced h => exact h

/-- The end of the innermost tag makes an element of all that came since its start. -/
theorem leave (h : LeavesOpen word ((tag, place) :: tags)) :
    LeavesOpen (word ++ [(.closes tag, position)]) tags := by
  cases h with
  | scope h hbody =>
    rw [List.append_assoc, List.cons_append]
    exact h.append (.element hbody .nil)

theorem step {bracket : Bracket × Nat} (h : LeavesOpen word tags)
    (hn : nest tags bracket = .ok left) : LeavesOpen (word ++ [bracket]) left := by
  obtain ⟨bracket, position⟩ := bracket
  cases bracket with
  | opens tag =>
    cases hn
    exact .scope h .nil
  | closes tag =>
    cases tags with
    | nil => cases hn
    | cons innermost tags =>
      obtain ⟨innermost, place⟩ := innermost
      dsimp only [Paragraph.nest] at hn
      split at hn
      · next htag =>
        cases hn
        subst htag
        exact h.leave
      · cases hn

/-- The stack holds just the tags that are left open. -/
theorem nest (h : LeavesOpen word tags) : word.foldlM Paragraph.nest [] = .ok tags := by
  induction h with
  | balanced h => exact h.nest []
  | @scope front body tags tag position _ hbody ih =>
    rw [List.foldlM_append, ih]
    exact hbody.nest ((tag, position) :: tags)

end LeavesOpen

/-! ## What the stack accepts -/

section

variable {registry : Registry α} {tokens front : List (Token × Nat)}
  {tags left : List (String × Nat)}

theorem bracketsOf_concat (registry : Registry α) (tokens : List (Token × Nat))
    (token : Token × Nat) :
    bracketsOf registry (tokens ++ [token]) =
      bracketsOf registry tokens ++ (bracketOf? registry token).toList := by
  unfold bracketsOf
  rw [List.filterMap_append]
  cases h : bracketOf? registry token <;> simp [h]

theorem unknown?_eq_none_iff {token : Token × Nat} :
    unknown? registry token = none ↔ AllRegistered registry [token] := by
  obtain ⟨token, position⟩ := token
  unfold AllRegistered
  cases token with
  | text runs => simp [unknown?]
  | closing tag => simp [unknown?]
  | opening tag options =>
    have hunknown : unknown? registry (.opening tag options, position) = none ↔
        (registry.find? tag).isSome = true := by
      dsimp only [unknown?]
      split <;> simp [*]
    rw [hunknown]
    refine ⟨fun h tag' options' position' hmem => ?_, fun h => h tag options position (by simp)⟩
    cases List.mem_singleton.1 hmem
    exact h

/-- A token of a registered tag does what its bracket does. -/
theorem nestToken_of_registered {token : Token × Nat} (h : AllRegistered registry [token]) :
    nestToken registry tags token = (bracketOf? registry token).toList.foldlM nest tags := by
  unfold nestToken
  rw [unknown?_eq_none_iff.2 h]
  cases bracketOf? registry token with
  | none => rfl
  | some bracket =>
    show nest tags bracket = [bracket].foldlM nest tags
    rw [List.foldlM_cons]
    cases nest tags bracket <;> rfl

theorem AllRegistered.append_iff {more : List (Token × Nat)} :
    AllRegistered registry (tokens ++ more) ↔
      AllRegistered registry tokens ∧ AllRegistered registry more := by
  unfold AllRegistered
  constructor
  · intro h
    exact ⟨fun tag options position hmem => h tag options position (List.mem_append_left _ hmem),
      fun tag options position hmem => h tag options position (List.mem_append_right _ hmem)⟩
  · rintro ⟨h, hmore⟩ tag options position hmem
    exact (List.mem_append.1 hmem).elim (h tag options position) (hmore tag options position)

theorem FitsSoFar.start (registry : Registry α) : FitsSoFar registry [] [] where
  registered := by simp [AllRegistered]
  leaves := .balanced .nil

theorem FitsSoFar.step {token : Token × Nat} (h : FitsSoFar registry front tags)
    (hn : nestToken registry tags token = .ok left) :
    FitsSoFar registry (front ++ [token]) left := by
  have hknown : AllRegistered registry [token] := by
    refine unknown?_eq_none_iff.1 ?_
    unfold nestToken at hn
    split at hn
    · cases hn
    · assumption
  refine ⟨AllRegistered.append_iff.2 ⟨h.registered, hknown⟩, ?_⟩
  rw [nestToken_of_registered hknown] at hn
  rw [bracketsOf_concat]
  cases hbracket : bracketOf? registry token with
  | none =>
    rw [hbracket] at hn
    cases hn
    rw [Option.toList_none, List.append_nil]
    exact h.leaves
  | some bracket =>
    rw [hbracket] at hn
    obtain ⟨next, hnext, hlast⟩ := exists_of_bind_ok ((List.foldlM_cons ..).symm.trans hn)
    cases hlast
    exact h.leaves.step hnext

theorem nestAll_concat (registry : Registry α) (tags : List (String × Nat))
    (tokens : List (Token × Nat)) (token : Token × Nat) :
    nestAll registry tags (tokens ++ [token]) =
      nestAll registry tags tokens >>= fun left => nestToken registry left token := by
  unfold nestAll
  rw [List.foldlM_append]
  congr 1
  funext left
  rw [List.foldlM_cons]
  cases nestToken registry left token <;> rfl

/-- Where all tags are registered only the brackets count. -/
theorem nestAll_of_registered (h : AllRegistered registry tokens) :
    nestAll registry tags tokens = (bracketsOf registry tokens).foldlM nest tags := by
  induction tokens using List.reverseRecOn with
  | nil => rfl
  | append_singleton tokens token ih =>
    obtain ⟨htokens, htoken⟩ := AllRegistered.append_iff.1 h
    rw [nestAll_concat, ih htokens, bracketsOf_concat, List.foldlM_append]
    congr 1
    funext left
    exact nestToken_of_registered htoken

theorem nestAll_eq_ok_iff :
    nestAll registry [] tokens = .ok tags ↔ FitsSoFar registry tokens tags := by
  constructor
  · intro h
    induction tokens using List.reverseRecOn generalizing tags with
    | nil =>
      cases h
      exact .start registry
    | append_singleton tokens token ih =>
      rw [nestAll_concat] at h
      obtain ⟨next, hnext, htoken⟩ := exists_of_bind_ok h
      exact (ih hnext).step htoken
  · rintro ⟨hknown, hleaves⟩
    rw [nestAll_of_registered hknown]
    exact hleaves.nest

theorem nest_eq_error_iff {tag : String} {position : Nat} {e : Error}
    (hv : registry.isVoid tag = false) :
    nest tags (.closes tag, position) = .error e ↔
      Offends registry tags (.closing tag, position) e := by
  constructor
  · intro h
    cases tags with
    | nil =>
      cases h
      exact .nothingOpen hv
    | cons innermost tags =>
      obtain ⟨innermost, place⟩ := innermost
      dsimp only [nest] at h
      split at h
      · cases h
      · next htag =>
        cases h
        exact .mismatched hv htag
  · intro h
    cases h with
    | nothingOpen => rfl
    | mismatched _ htag => exact if_neg htag

theorem nestToken_eq_error_iff {token : Token × Nat} {e : Error} :
    nestToken registry tags token = .error e ↔ Offends registry tags token e := by
  obtain ⟨token, position⟩ := token
  cases token with
  | text runs =>
    constructor
    · intro h
      cases h
    · intro h
      cases h
  | opening tag options =>
    rw [nestToken_opening]
    constructor
    · intro h
      split at h
      · cases h
      · next htag =>
        cases h
        exact .unknown (by simpa using htag)
    · intro h
      cases h with
      | unknown htag => rw [htag]; rfl
  | closing tag =>
    rw [nestToken_closing]
    cases hv : registry.isVoid tag with
    | false => exact nest_eq_error_iff hv
    | true =>
      constructor
      · intro h
        cases h
      · intro h
        cases h with
        | nothingOpen hv' =>
          rw [hv] at hv'
          cases hv'
        | mismatched hv' =>
          rw [hv] at hv'
          cases hv'

theorem nestAll_eq_error_iff {e : Error} :
    nestAll registry [] tokens = .error e ↔
      ∃ front token back tags, tokens = front ++ token :: back ∧
        FitsSoFar registry front tags ∧ Offends registry tags token e := by
  refine foldlM_error_iff.trans ?_
  simp only [← nestAll_eq_ok_iff, ← nestToken_eq_error_iff]
  rfl

theorem accepted_iff :
    nestAll registry [] tokens >>= closeAll = .ok () ↔
      AllRegistered registry tokens ∧ BalancedWord (bracketsOf registry tokens) := by
  constructor
  · intro h
    obtain ⟨tags, htags, hclose⟩ := exists_of_bind_ok h
    cases tags with
    | nil =>
      have hfits := nestAll_eq_ok_iff.1 htags
      exact ⟨hfits.registered, hfits.leaves.closed⟩
    | cons innermost tags => cases hclose
  · rintro ⟨hknown, hbalanced⟩
    rw [nestAll_eq_ok_iff.2 ⟨hknown, .balanced hbalanced⟩]
    rfl

theorem offends_iff {e : Error} :
    nestAll registry [] tokens >>= closeAll = .error e ↔ FirstOffence registry tokens e := by
  constructor
  · intro h
    cases hnest : nestAll registry [] tokens with
    | error e' =>
      rw [hnest] at h
      cases h
      obtain ⟨front, token, back, tags, htokens, hfront, hoffends⟩ := nestAll_eq_error_iff.1 hnest
      exact .token htokens hfront hoffends
    | ok tags =>
      rw [hnest] at h
      cases tags with
      | nil => cases h
      | cons innermost tags =>
        cases h
        exact .unclosed (nestAll_eq_ok_iff.1 hnest)
  · intro h
    cases h with
    | token htokens hfront hoffends =>
      rw [nestAll_eq_error_iff.2 ⟨_, _, _, _, htokens, hfront, hoffends⟩]
      rfl
    | unclosed hfits =>
      rw [nestAll_eq_ok_iff.2 hfits]
      rfl

end

/-! ## The parser's open tags -/

variable [Scalar α]

namespace Parser

variable {p q : Parser α}

omit [Scalar α] in
/-- The tags that are open, each with its place. -/
def openPlaces (p : Parser α) : List (String × Nat) :=
  p.openTags.map fun opened => (opened.tag, opened.position)

theorem openPlaces_noteLine (p : Parser α) (i : Instruction α) :
    (p.noteLine i).openPlaces = p.openPlaces := by
  obtain ⟨lineOpen, h⟩ := p.noteLine_eq i
  rw [h]
  rfl

/-- The tag of an opening token is read without an error, if it is registered. -/
def Resolves (p : Parser α) : Token × Nat → Prop
  | (.opening tag options, position) => (p.setup.registry.find? tag).isSome = true →
    ∃ i q, ({ p with betweenParagraphs := false } : Parser α).openTag tag options position =
      (.ok i, q)
  | _ => True

/-- Each tag of the text that is registered is read without an error where the parser comes to
it. -/
def ResolvesAll (p : Parser α) (tokens : List (Token × Nat)) : Prop :=
  Everywhere (fun front token _ => ∀ out q,
    p.takeAll (front.flatMap (piecesOf p.setup.mode)) = .ok (out, q) → q.Resolves token) tokens

theorem take_runs (hp : p.Quiet) (runs : List String) :
    ∃ out q, p.takeAll (runs.map .run) = .ok (out, q) ∧ q.openPlaces = p.openPlaces := by
  induction runs generalizing p with
  | nil => exact ⟨[], p, rfl, rfl⟩
  | cons content runs ih =>
    obtain ⟨first, q, htake⟩ : ∃ first q, p.take (.run content) = .ok (first, q) := by
      dsimp only [Parser.take]
      split <;> exact ⟨_, _, rfl⟩
    have htakes := Takes.of_take hp.pushed htake
    obtain ⟨more, r, hmore, hsame⟩ := ih (htakes.quiet hp).1
    refine ⟨first ++ more, r, ?_, hsame.trans ?_⟩
    · rw [List.map_cons, takeAll, htake]
      dsimp only
      rw [hmore]
      rfl
    · cases htakes <;> rfl

theorem openTag_unknown {tag : String} {options : Attributes} {position : Nat}
    (h : p.setup.registry.find? tag = none) :
    p.openTag tag options position = (.error (.nesting .unknownTag tag position), p) := by
  unfold openTag resolveTag
  rw [h]

theorem take_opening_nests (hp : p.Quiet) {tag : String} {options : Attributes} {position : Nat}
    (hr : p.Resolves (.opening tag options, position)) :
    (p.take (.opening tag options position)).map (fun taken => taken.2.openPlaces) =
      nestToken p.setup.registry p.openPlaces (.opening tag options, position) := by
  rw [nestToken_opening]
  cases hfind : p.setup.registry.find? tag with
  | none =>
    have hopen : ({ p with betweenParagraphs := false } : Parser α).openTag tag options position =
        _ := openTag_unknown hfind
    dsimp only [Parser.take]
    rw [hopen]
    rfl
  | some style =>
    obtain ⟨i, q, hopen⟩ := hr (by rw [hfind]; rfl)
    obtain ⟨out, r, htake⟩ : ∃ out r, p.take (.opening tag options position) = .ok (out, r) := by
      dsimp only [Parser.take]
      rw [hopen]
      exact ⟨_, _, rfl⟩
    have htakes := Takes.of_take hp.pushed htake
    rw [htake]
    show Except.ok _ = _
    cases htakes with
    | void hv _ =>
      rw [hv]
      rfl
    | opening hv _ _ =>
      rw [hv]
      rfl

theorem take_closing_nests (p : Parser α) (tag : String) (position : Nat) :
    (p.take (.closing tag position)).map (fun taken => taken.2.openPlaces) =
      nestToken p.setup.registry p.openPlaces (.closing tag, position) := by
  rw [nestToken_closing, take_closing]
  cases hv : p.setup.registry.isVoid tag with
  | true =>
    rw [closeTag_of_void hv]
    rfl
  | false =>
    cases ho : p.openTags with
    | nil =>
      rw [closeTag_of_nil hv ho]
      unfold openPlaces
      rw [ho]
      rfl
    | cons opened openTags =>
      have hplaces : p.openPlaces = (opened.tag, opened.position) ::
          openTags.map fun opened => (opened.tag, opened.position) := by
        unfold openPlaces
        rw [ho]
        rfl
      rw [hplaces]
      by_cases htag : opened.tag = tag
      · subst htag
        have hclose : nest ((opened.tag, opened.position) ::
            openTags.map fun opened => (opened.tag, opened.position)) (.closes opened.tag, position)
            = .ok (openTags.map fun opened => (opened.tag, opened.position)) := if_pos rfl
        rw [closeTag_of_match hv ho, if_neg (by decide), hclose]
        exact congrArg Except.ok (openPlaces_noteLine _ _)
      · rw [closeTag_of_mismatch hv ho htag]
        exact (if_neg htag).symm

theorem takeAll_single (p : Parser α) (piece : Piece) : p.takeAll [piece] = p.take piece := by
  rw [takeAll]
  cases p.take piece with
  | error e => rfl
  | ok taken => exact congrArg (fun out => Except.ok (out, taken.2)) (List.append_nil taken.1)

/-- What a token does to the parser's open tags is what it does to the stack. -/
theorem take_nests (hp : p.Quiet) {token : Token × Nat} (hr : p.Resolves token) :
    (p.takeAll (piecesOf p.setup.mode token)).map (fun taken => taken.2.openPlaces) =
      nestToken p.setup.registry p.openPlaces token := by
  obtain ⟨token, position⟩ := token
  cases token with
  | text runs =>
    obtain ⟨out, q, htake, hsame⟩ := take_runs hp (splitRuns p.setup.mode runs)
    rw [piecesOf, htake]
    exact congrArg Except.ok hsame
  | opening tag options => rw [piecesOf, takeAll_single, take_opening_nests hp hr]
  | closing tag => rw [piecesOf, takeAll_single, take_closing_nests]

theorem takeAll_nests (hp : p.Quiet) {tokens : List (Token × Nat)} (hr : p.ResolvesAll tokens) :
    (p.takeAll (tokens.flatMap (piecesOf p.setup.mode))).map (fun taken => taken.2.openPlaces) =
      nestAll p.setup.registry p.openPlaces tokens := by
  induction tokens generalizing p with
  | nil => rfl
  | cons token tokens ih =>
    obtain ⟨hfirst, hrest⟩ := Everywhere.cons_iff.1 hr
    have htoken := take_nests hp (hfirst [] p rfl)
    unfold nestAll
    rw [List.flatMap_cons, List.foldlM_cons, ← htoken]
    cases htake : p.takeAll (piecesOf p.setup.mode token) with
    | error e =>
      rw [takeAll_append, htake]
      rfl
    | ok taken =>
      obtain ⟨out, q⟩ := taken
      obtain ⟨hq, hsetup⟩ := hp.takeAll htake
      have hmore : q.ResolvesAll tokens := by
        refine hrest.mono fun front next back hnext more r hread => ?_
        rw [hsetup] at hread
        refine hnext (out ++ more) r ?_
        rw [List.flatMap_cons, takeAll_append_ok htake, hread]
        rfl
      have hih := ih hq hmore
      rw [hsetup] at hih
      rw [takeAll_append_ok htake]
      show _ = nestAll p.setup.registry q.openPlaces tokens
      rw [← hih]
      cases q.takeAll (tokens.flatMap (piecesOf p.setup.mode)) <;> rfl

/-- Where the pieces are all read, each tag has been. -/
theorem resolvesAll_of_takeAll {tokens : List (Token × Nat)} {out : List (Instruction α)}
    (h : p.takeAll (tokens.flatMap (piecesOf p.setup.mode)) = .ok (out, q)) :
    p.ResolvesAll tokens := by
  rintro front token back rfl first r hfront
  rw [List.flatMap_append, takeAll_append_ok hfront, List.flatMap_cons] at h
  obtain ⟨⟨later, s⟩, hmore, -⟩ := exists_of_map_ok h
  obtain ⟨token, position⟩ := token
  cases token with
  | text runs => trivial
  | closing tag => trivial
  | opening tag options =>
    intro _
    obtain ⟨first, t, more, htake, -⟩ := takeAll_cons_ok hmore
    dsimp only [Parser.take] at htake
    split at htake
    · cases htake
    · next i s hopen => exact ⟨i, s, hopen⟩

omit [Scalar α] in
theorem atEnd_eq (p : Parser α) : p.atEnd = (closeAll p.openPlaces).map fun _ => none := by
  unfold atEnd openPlaces
  cases p.openTags <;> rfl

/-- Whether a text can be read to its end, and with which error if not, is settled by the stack. -/
theorem stream_nests {text : String} {root : StyleState α} {setup : Setup α}
    {tokens : List (Token × Nat)} (hscan : Scans (.ofText text) tokens)
    (hr : (Parser.ofText text root setup).ResolvesAll tokens) :
    (Parser.ofText text root setup).stream.map (fun _ => ()) =
      nestAll setup.registry [] tokens >>= closeAll := by
  have hnests := takeAll_nests (p := Parser.ofText text root setup) ⟨rfl, rfl⟩ hr
  have hstart : nestAll setup.registry [] tokens = nestAll
    (Parser.ofText text root setup).setup.registry (Parser.ofText text root setup).openPlaces
      tokens := rfl
  rw [stream_ofText hscan, hstart, ← hnests]
  show _ =
    ((Parser.ofText text root setup).takeAll (tokens.flatMap (piecesOf setup.mode))).map _ >>= _
  cases (Parser.ofText text root setup).takeAll (tokens.flatMap (piecesOf setup.mode)) with
  | error e => rfl
  | ok taken =>
    obtain ⟨out, q⟩ := taken
    dsimp only [follow]
    rw [atEnd_eq]
    show _ = closeAll q.openPlaces
    cases closeAll q.openPlaces <;> rfl

end Parser

/-- A text of tokens whose registered tags are all read without an error is read to its end exactly
if each tag that it opens is registered and its brackets are balanced.  Otherwise the error is that
of the first token that does not fit or, where all fit, names the innermost tag that is left open.
Each token is at the place in the text that an error would give. -/
theorem nesting_accepted_iff {text : String} {root : StyleState α} {setup : Setup α}
    {tokens : List (Token × Nat)} (hscan : Scans (.ofText text) tokens)
    (hresolves : (Parser.ofText text root setup).ResolvesAll tokens) :
    ((∃ out q, (Parser.ofText text root setup).handouts = (.ok out, q)) ↔
        AllRegistered setup.registry tokens ∧
          BalancedWord (bracketsOf setup.registry tokens)) ∧
      (∀ e, (∃ q, (Parser.ofText text root setup).handouts = (.error e, q)) ↔
        FirstOffence setup.registry tokens e) ∧
      ∀ token ∈ tokens, TokenAt text token.2 token.1 := by
  have hnests := Parser.stream_nests hscan hresolves
  refine ⟨?_, fun e => ?_, hscan.tokenAt_ofText⟩
  · rw [← accepted_iff, ← hnests]
    constructor
    · rintro ⟨out, q, hread⟩
      rw [Parser.stream_eq_ok_iff.2 ⟨out, q, hread, rfl⟩]
      rfl
    · intro h
      obtain ⟨items, hitems, -⟩ := exists_of_map_ok h
      obtain ⟨out, q, hread, -⟩ := Parser.stream_eq_ok_iff.1 hitems
      exact ⟨out, q, hread⟩
  · rw [← offends_iff, ← hnests, ← Parser.stream_eq_error_iff]
    constructor
    · intro h
      rw [h]
      rfl
    · exact error_of_map

namespace Sample

/-- A void tag in its place, and then the end of a tag that is not the innermost. -/
def crossed : String := "<b>x<br/></i>"

def crossedFront : List (Token × Nat) :=
  [(.opening "b" .empty, 0), (.text ["x"], 3), (.opening "br" .empty, 4), (.closing "br", 9)]

def crossedTokens : List (Token × Nat) := crossedFront ++ [(.closing "i", 9)]

theorem crossed_scans : Scans (.ofText crossed) crossedTokens := by
  refine .cons (t := ⟨"x<br/></i>".toList, 3, none⟩) (by decide +kernel) ?_
  refine .cons (t := ⟨"<br/></i>".toList, 4, none⟩) (by decide +kernel) ?_
  refine .cons (t := ⟨"</i>".toList, 9, some "br"⟩) (by decide +kernel) ?_
  refine .cons (t := ⟨"</i>".toList, 9, none⟩) (by decide +kernel) ?_
  exact .cons (t := ⟨[], 13, none⟩) (by decide +kernel)
    (.nil (t := ⟨[], 13, none⟩) (by decide +kernel))

theorem crossed_resolves : (parser crossed).ResolvesAll crossedTokens := by
  have hfront : ((parser crossed).takeAll (crossedFront.flatMap (piecesOf .word))).map
      (fun taken => taken.1.length) = .ok 3 := by
    decide +kernel
  obtain ⟨⟨out, q⟩, htake, -⟩ := exists_of_map_ok hfront
  refine Everywhere.concat_iff.2 ⟨?_, fun _ _ _ => trivial⟩
  exact (Parser.resolvesAll_of_takeAll htake).mono fun _ _ _ h => h

end Sample

theorem nesting_rejected_crossed :
    Scans (.ofText Sample.crossed) Sample.crossedTokens ∧
      (Parser.ofText Sample.crossed Sample.state Sample.setup).ResolvesAll Sample.crossedTokens ∧
      (∃ q, (Parser.ofText Sample.crossed Sample.state Sample.setup).handouts =
        (.error (.nesting .mismatched "i" 9), q)) ∧
      FirstOffence Sample.setup.registry Sample.crossedTokens (.nesting .mismatched "i" 9) := by
  have hread : (Sample.parser Sample.crossed).handouts.1.map List.length =
      .error (.nesting .mismatched "i" 9) := by
    decide +kernel
  have herror : ∃ q, (Parser.ofText Sample.crossed Sample.state Sample.setup).handouts =
      (.error (.nesting .mismatched "i" 9), q) := ⟨_, Prod.ext (error_of_map hread) rfl⟩
  have hresolves : (Parser.ofText Sample.crossed Sample.state Sample.setup).ResolvesAll
      Sample.crossedTokens := Sample.crossed_resolves
  have hnesting := nesting_accepted_iff Sample.crossed_scans hresolves
  exact ⟨Sample.crossed_scans, hresolves, herror, (hnesting.2.1 _).1 herror⟩

end Paragraph
end Galley
