import Mathlib
import Galley.Markup.Scanner

/-
The grammar of marked-up text.

`Document text tokens` says that a text is put together of plain characters, entities, opening tags
and end tags, and that these are the tokens it stands for.  Nothing in it moves through the text:
each rule names the pieces that stand side by side.  Two kinds of pieces are as long as they can
be, words and values without quotes, and their rules say what may come behind them.

Beside the grammar stand its facts about single pieces: a text is cut into runs in one way
(`runsAs_iff`), and an entity means what it is read as (`entity?_eq_some_iff`).
-/

namespace Galley
namespace Markup

/-! ## Characters side by side -/

/-- What comes next, if anything does, fails the test. -/
def StopsAt (p : Char → Bool) (rest : List Char) : Prop := ∀ c ∈ rest.head?, p c = false

def Spaces (cs : List Char) : Prop := ∀ c ∈ cs, Text.isSpace c = true

/-- A name of letters, digits and underscores, which does not go on in what comes behind it. -/
structure Word (cs behind : List Char) : Prop where
  nonempty : cs ≠ []
  chars : ∀ c ∈ cs, isWord c = true
  maximal : StopsAt isWord behind

/-- Stands for itself between tags and entities. -/
def isPlain (c : Char) : Bool := c != '<' && c != '&'

def isQuote (c : Char) : Bool := c = '"' || c = '\x27'

/-- May stand in a value without quotes. -/
def isBare (c : Char) : Bool := !Text.isSpace c && c != '>'

theorem stopsAt_dropWhile (p : Char → Bool) (cs : List Char) : StopsAt p (cs.dropWhile p) := by
  intro c hc
  have h := List.head?_dropWhile_not p cs
  rw [Option.mem_def.1 hc] at h
  exact h

theorem stopsAt_append {p : Char → Bool} {cs rest : List Char} (hcs : cs ≠ []) :
    StopsAt p (cs ++ rest) ↔ StopsAt p cs := by
  unfold StopsAt
  rw [List.head?_append_of_ne_nil cs hcs]

theorem stopsAt_cons {p : Char → Bool} {c : Char} {rest : List Char} :
    StopsAt p (c :: rest) ↔ p c = false := by
  simp [StopsAt]

/-- All white space, for facts that are checked for each such character. -/
def whiteSpace : List Char := [' ', '\t', '\n', '\r', '\x0b', '\x0c']

theorem isSpace_iff_mem {c : Char} : Text.isSpace c = true ↔ c ∈ whiteSpace := by
  simp [Text.isSpace, whiteSpace, or_assoc]

theorem not_isSpace_of_isWord {c : Char} (h : isWord c = true) : Text.isSpace c = false := by
  have hall : ∀ d ∈ whiteSpace, isWord d = false := by simp [whiteSpace, isWord]
  by_contra hc
  rw [Bool.not_eq_false, isSpace_iff_mem] at hc
  rw [hall c hc] at h
  cases h

/-! ## Text -/

/-- The text is cut where the class of its characters changes, and each piece of white space
counts as one space. -/
inductive RunsAs : List Char → List String → Prop where
  | nil : RunsAs [] []
  | run {piece rest : List Char} {runs : List String} (k : CharClass) (hne : piece ≠ [])
      (hk : ∀ c ∈ piece, classOf c = k) (hnext : ∀ c ∈ rest.head?, classOf c ≠ k)
      (hrest : RunsAs rest runs) :
      RunsAs (piece ++ rest) ((if k = .space then " " else String.ofList piece) :: runs)

theorem head?_segment (cs : List Char) : ((segment cs).head?.bind List.head?) = cs.head? := by
  cases hs : segment cs with
  | nil =>
    have hcs := flatten_segment cs
    rw [hs] at hcs
    rw [← hcs]
    rfl
  | cons run runs =>
    have hne : run ≠ [] := @ne_nil_of_mem_segment cs run (by simp [hs])
    have hcs := flatten_segment cs
    rw [hs] at hcs
    rw [← hcs, List.flatten_cons, List.head?_append_of_ne_nil run hne]
    rfl

/-- A piece of one class that stops before another class is a run of its own. -/
theorem segment_append {k : CharClass} {piece rest : List Char} (hne : piece ≠ [])
    (hk : ∀ c ∈ piece, classOf c = k) (hnext : ∀ c ∈ rest.head?, classOf c ≠ k) :
    segment (piece ++ rest) = piece :: segment rest := by
  induction piece with
  | nil => exact absurd rfl hne
  | cons c cs ih =>
    have hc : classOf c = k := hk c List.mem_cons_self
    rw [List.cons_append, segment]
    cases cs with
    | nil =>
      rw [List.nil_append]
      have hhead := head?_segment rest
      split
      · next d ds runs hs =>
        rw [hs] at hhead
        have hd : classOf d ≠ k := hnext d (by rw [← hhead]; rfl)
        rw [if_neg (by rw [hc]; exact fun h => hd h.symm), hs]
      · rfl
    | cons d ds =>
      have hd : classOf d = k := hk d (by simp)
      rw [ih (by simp) (fun x hx => hk x (List.mem_cons_of_mem c hx))]
      dsimp only
      rw [if_pos (hc.trans hd.symm)]

theorem runText_of_class {k : CharClass} {piece : List Char} (hne : piece ≠ [])
    (hk : ∀ c ∈ piece, classOf c = k) :
    runText piece = if k = .space then " " else String.ofList piece := by
  cases piece with
  | nil => exact absurd rfl hne
  | cons c cs => rw [runText, hk c List.mem_cons_self]

theorem RunsAs.eq_runsOf {cs : List Char} {runs : List String} (h : RunsAs cs runs) :
    runs = runsOf cs := by
  induction h with
  | nil => rfl
  | run k hne hk hnext _ ih =>
    rw [ih]
    unfold runsOf
    rw [segment_append hne hk hnext, List.map_cons, runText_of_class hne hk]

theorem exists_runsAs (cs : List Char) : ∃ runs, RunsAs cs runs := by
  induction hn : cs.length using Nat.strong_induction_on generalizing cs with
  | _ n ih =>
    cases cs with
    | nil => exact ⟨[], .nil⟩
    | cons c cs =>
      let p : Char → Bool := fun d => classOf d = classOf c
      have hlt : (cs.dropWhile p).length < n := by
        have := List.length_dropWhile_le p cs
        simp only [List.length_cons] at hn
        omega
      obtain ⟨runs, hruns⟩ := ih _ hlt (cs.dropWhile p) rfl
      have hall : ∀ d ∈ c :: cs.takeWhile p, classOf d = classOf c := by
        intro d hd
        rcases List.mem_cons.1 hd with rfl | hd
        · rfl
        · simpa [p] using List.mem_takeWhile_imp hd
      have hnext : ∀ d ∈ (cs.dropWhile p).head?, classOf d ≠ classOf c := by
        intro d hd
        simpa [p] using stopsAt_dropWhile p cs d hd
      have h := RunsAs.run (classOf c) (List.cons_ne_nil c _) hall hnext hruns
      rw [List.cons_append, List.takeWhile_append_dropWhile] at h
      exact ⟨_, h⟩

theorem runsAs_iff {cs : List Char} {runs : List String} : RunsAs cs runs ↔ runs = runsOf cs := by
  constructor
  · exact RunsAs.eq_runsOf
  · rintro rfl
    obtain ⟨runs, hruns⟩ := exists_runsAs cs
    rwa [← hruns.eq_runsOf]

/-! ## Entities -/

/-- Digits of a base, the most significant first, that write a number. -/
structure Writes (base : Nat) (digit? : Char → Option Nat) (digits : List Char) (n : Nat) :
    Prop where
  nonempty : digits ≠ []
  value : ∃ values : List Nat, digits.map digit? = values.map some ∧
    n = Nat.ofDigits base values.reverse

/-- `Reference name c`: between an ampersand and a semicolon, `name` means `c`. -/
inductive Reference : List Char → Char → Prop where
  | named {name : String} {c : Char} (h : namedEntity? name = some c) : Reference name.toList c
  | decimal {digits : List Char} {n : Nat} (h : Writes 10 decimalValue? digits n)
      (hn : n.isValidChar) : Reference ('#' :: digits) (Char.ofNat n)
  | hexadecimal {x : Char} {digits : List Char} {n : Nat} (hx : x = 'x' ∨ x = 'X')
      (h : Writes 16 Text.hexValue? digits n) (hn : n.isValidChar) :
      Reference ('#' :: x :: digits) (Char.ofNat n)

theorem numberFrom?_eq_some_iff {base : Nat} {digit? : Char → Option Nat} {acc n : Nat}
    {cs : List Char} : numberFrom? base digit? acc cs = some n ↔
      ∃ values : List Nat, cs.map digit? = values.map some ∧
        n = Nat.ofDigits base (values.reverse ++ [acc]) := by
  induction cs generalizing acc with
  | nil =>
    constructor
    · intro h
      exact ⟨[], rfl, by simpa [numberFrom?] using h.symm⟩
    · rintro ⟨values, hvalues, rfl⟩
      obtain rfl : values = [] := by simpa using hvalues.symm
      simp [numberFrom?]
  | cons c cs ih =>
    have hmove (d : Nat) (values : List Nat) :
        Nat.ofDigits base (values.reverse ++ [base * acc + d]) =
          Nat.ofDigits base ((d :: values).reverse ++ [acc]) := by
      simp only [List.reverse_cons, Nat.ofDigits_append, Nat.ofDigits_singleton,
        List.length_append, List.length_reverse, List.length_singleton]
      ring
    rw [numberFrom?]
    constructor
    · intro h
      obtain ⟨d, hd, h⟩ := Option.bind_eq_some_iff.1 h
      obtain ⟨values, hvalues, rfl⟩ := ih.1 h
      exact ⟨d :: values, by simp [hd, hvalues], hmove d values⟩
    · rintro ⟨values, hvalues, rfl⟩
      cases values with
      | nil => simp at hvalues
      | cons d values =>
        obtain ⟨hd, hvalues⟩ := List.cons.inj hvalues
        rw [hd, Option.bind_some]
        exact ih.2 ⟨values, hvalues, (hmove d values).symm⟩

theorem number?_eq_some_iff {base : Nat} {digit? : Char → Option Nat} {cs : List Char} {n : Nat} :
    number? base digit? cs = some n ↔ Writes base digit? cs n := by
  have hzero (values : List Nat) :
      Nat.ofDigits base (values.reverse ++ [0]) = Nat.ofDigits base values.reverse := by
    rw [Nat.ofDigits_append_zero]
  unfold number?
  constructor
  · intro h
    split at h
    · cases h
    · next hne =>
      obtain ⟨values, hvalues, rfl⟩ := numberFrom?_eq_some_iff.1 h
      exact ⟨by simpa using hne, values, hvalues, hzero values⟩
  · rintro ⟨hne, values, hvalues, rfl⟩
    rw [if_neg (by simpa using hne)]
    exact numberFrom?_eq_some_iff.2 ⟨values, hvalues, (hzero values).symm⟩

theorem scalar?_eq_some_iff {n : Nat} {c : Char} :
    scalar? n = some c ↔ n.isValidChar ∧ c = Char.ofNat n := by
  unfold scalar?
  split
  · next h => simp [h, eq_comm]
  · next h => simp [h]

theorem character_eq_some_iff {base : Nat} {digit? : Char → Option Nat} {cs : List Char}
    {c : Char} : (number? base digit? cs).bind scalar? = some c ↔
      ∃ n, Writes base digit? cs n ∧ n.isValidChar ∧ c = Char.ofNat n := by
  rw [Option.bind_eq_some_iff]
  simp only [number?_eq_some_iff, scalar?_eq_some_iff]

/-- The first of the digits that write a number is a digit. -/
theorem Writes.head {base : Nat} {digit? : Char → Option Nat} {c : Char} {cs : List Char}
    {n : Nat} (h : Writes base digit? (c :: cs) n) : (digit? c).isSome = true := by
  obtain ⟨values, hvalues, -⟩ := h.value
  cases values with
  | nil => simp at hvalues
  | cons d values =>
    rw [(List.cons.inj hvalues).1]
    rfl

theorem Writes.isSome {base : Nat} {digit? : Char → Option Nat} {cs : List Char} {n : Nat}
    (h : Writes base digit? cs n) : ∀ c ∈ cs, (digit? c).isSome = true := by
  obtain ⟨values, hvalues, -⟩ := h.value
  intro c hc
  have hmem : digit? c ∈ values.map some := by
    rw [← hvalues]
    exact List.mem_map_of_mem hc
  obtain ⟨d, -, hd⟩ := List.mem_map.1 hmem
  rw [← hd]
  rfl

theorem entity?_of_decimal {digits : List Char}
    (h : ∀ c ∈ digits.head?, (decimalValue? c).isSome = true) :
    entity? ('#' :: digits) = (number? 10 decimalValue? digits).bind scalar? := by
  cases digits with
  | nil => rfl
  | cons c cs =>
    have hc : (decimalValue? c).isSome = true := h c rfl
    have hx : c ≠ 'x' := by
      rintro rfl
      revert hc
      decide
    have hX : c ≠ 'X' := by
      rintro rfl
      revert hc
      decide
    unfold entity?
    split
    · next heq => exact absurd (List.cons.inj (List.cons.inj heq).2).1 hx
    · next heq => exact absurd (List.cons.inj (List.cons.inj heq).2).1 hX
    · next heq => rw [(List.cons.inj heq).2]
    · next hne => exact absurd rfl (hne (c :: cs))

theorem entity?_eq_some_iff {name : List Char} {c : Char} :
    entity? name = some c ↔ Reference name c := by
  constructor
  · intro h
    unfold entity? at h
    split at h
    · obtain ⟨n, hn, hvalid, rfl⟩ := character_eq_some_iff.1 h
      exact .hexadecimal (Or.inl rfl) hn hvalid
    · obtain ⟨n, hn, hvalid, rfl⟩ := character_eq_some_iff.1 h
      exact .hexadecimal (Or.inr rfl) hn hvalid
    · obtain ⟨n, hn, hvalid, rfl⟩ := character_eq_some_iff.1 h
      exact .decimal hn hvalid
    · have hname := Reference.named h
      rwa [String.toList_ofList] at hname
  · intro h
    cases h with
    | @named name c h =>
      -- one of the ten names of the table
      unfold namedEntity? at h
      split at h <;> cases h <;> rfl
    | @decimal digits n h hn =>
      rw [entity?_of_decimal, character_eq_some_iff]
      · exact ⟨n, h, hn, rfl⟩
      · intro c hc
        cases digits with
        | nil => cases hc
        | cons d ds =>
          cases hc
          exact h.head
    | @hexadecimal x digits n hx h hn =>
      have hchar : (number? 16 Text.hexValue? digits).bind scalar? = some (Char.ofNat n) :=
        character_eq_some_iff.2 ⟨n, h, hn, rfl⟩
      rcases hx with rfl | rfl
      · exact hchar
      · exact hchar

/-- What may stand before the word of an entity. -/
inductive Sign : List Char → List Char → Prop where
  | none {word : List Char} (h : word.head? ≠ some '#') : Sign [] word
  | number {word : List Char} (h : word.head? ≠ some 'x') : Sign ['#'] word
  | hexadecimal {word : List Char} : Sign ['#', 'x'] word

theorem isWord_of_digit {c : Char} (h : '0' ≤ c ∧ c ≤ '9') : isWord c = true := by
  have hdigit : c.isDigit = true := by
    simp only [Char.isDigit, Bool.and_eq_true, decide_eq_true_eq]
    exact h
  simp [isWord, Char.isAlphanum, hdigit]

theorem isWord_of_decimalValue? {c : Char} (h : (decimalValue? c).isSome = true) :
    isWord c = true := by
  refine isWord_of_digit ?_
  by_contra hc
  simp [decimalValue?, hc] at h

theorem isWord_of_hexValue? {c : Char} (h : (Text.hexValue? c).isSome = true) :
    isWord c = true := by
  unfold Text.hexValue? at h
  split at h
  · next hc => exact isWord_of_digit hc
  · split at h
    · next hc =>
      have hz : c ≤ 'z' := le_trans hc.2 (by decide)
      have hlower : c.isLower = true := by simpa [Char.isLower] using ⟨hc.1, hz⟩
      simp [isWord, Char.isAlphanum, Char.isAlpha, hlower]
    · split at h
      · next hc =>
        have hz : c ≤ 'Z' := le_trans hc.2 (by decide)
        have hupper : c.isUpper = true := by simpa [Char.isUpper] using ⟨hc.1, hz⟩
        simp [isWord, Char.isAlphanum, Char.isAlpha, hupper]
      · cases h

/-- The name of an entity is a word behind its sign. -/
theorem Reference.shape {name : List Char} {c : Char} (h : Reference name c) :
    ∃ sign word, name = sign ++ word ∧ word ≠ [] ∧ (∀ x ∈ word, isWord x = true) ∧
      ∀ behind, Sign sign (word ++ behind) := by
  cases h with
  | @named name c h =>
    have hname : name.toList ≠ [] ∧ (∀ x ∈ name.toList, isWord x = true) ∧
        name.toList.head? ≠ some '#' := by
      unfold namedEntity? at h
      split at h <;> cases h <;> simp [isWord]
    refine ⟨[], name.toList, rfl, hname.1, hname.2.1, fun behind => .none ?_⟩
    rw [List.head?_append_of_ne_nil _ hname.1]
    exact hname.2.2
  | @decimal digits n h hn =>
    refine ⟨['#'], digits, rfl, h.nonempty, fun x hx => isWord_of_decimalValue? (h.isSome x hx),
      fun behind => .number ?_⟩
    rw [List.head?_append_of_ne_nil _ h.nonempty]
    intro hx
    exact absurd (h.isSome 'x' (List.mem_of_head? hx)) (by decide)
  | @hexadecimal x digits n hx h hn =>
    have hdigits : ∀ d ∈ digits, isWord d = true := fun d hd => isWord_of_hexValue? (h.isSome d hd)
    rcases hx with rfl | rfl
    · exact ⟨['#', 'x'], digits, rfl, h.nonempty, hdigits, fun behind => .hexadecimal⟩
    · refine ⟨['#'], 'X' :: digits, rfl, by simp, ?_, fun behind => .number (by simp)⟩
      intro d hd
      rcases List.mem_cons.1 hd with rfl | hd
      · decide
      · exact hdigits d hd

/-! ## Tags -/

/-- `Value written value behind`: before `behind`, a value is written so.  Quotes are of either
kind.  Without them a value is as long as it can be: it goes on to white space or to the end of the
tag, and there is an empty one only at the end of the tag, since white space before a value is
not its own. -/
inductive Value : List Char → List Char → List Char → Prop where
  | quoted {quote : Char} {value behind : List Char} (hquote : isQuote quote = true)
      (hvalue : quote ∉ value) : Value (quote :: (value ++ [quote])) value behind
  | bare {value behind : List Char} (hvalue : ∀ c ∈ value, isBare c = true)
      (hquote : StopsAt isQuote value)
      (hlong : ∃ c, behind.head? = some c ∧ (c = '>' ∨ value ≠ [] ∧ Text.isSpace c = true)) :
      Value value value behind

/-- `TagRest written options closed`: what stands in a tag behind its name and the white space
there, up to its end.  `closed` tells whether the tag closes itself. -/
inductive TagRest : List Char → List (String × String) → Bool → Prop where
  | stop : TagRest ['>'] [] false
  | close : TagRest ['/', '>'] [] true
  | option {name before after written value more rest : List Char}
      {options : List (String × String)} {closed : Bool}
      (hname : Word name (before ++ '=' :: (after ++ (written ++ (more ++ rest)))))
      (hbefore : Spaces before) (hafter : Spaces after)
      (hvalue : Value written value (more ++ rest)) (hmore : Spaces more)
      (hrest : TagRest rest options closed) :
      TagRest (name ++ (before ++ '=' :: (after ++ (written ++ (more ++ rest)))))
        ((Text.lowercase name, String.ofList value) :: options) closed

theorem Value.congr {written value behind behind' : List Char} (h : Value written value behind)
    (hhead : behind'.head? = behind.head?) : Value written value behind' := by
  cases h with
  | quoted hquote hvalue => exact .quoted hquote hvalue
  | bare hvalue hquote hlong => exact .bare hvalue hquote (by rwa [hhead])

theorem TagRest.ne_nil {written : List Char} {options : List (String × String)} {closed : Bool}
    (h : TagRest written options closed) : written ≠ [] := by
  cases h <;> simp

theorem not_isSpace_of_tagRest {written : List Char} {options : List (String × String)}
    {closed : Bool} (h : TagRest written options closed) : StopsAt Text.isSpace written := by
  cases h with
  | stop => exact stopsAt_cons.2 (by decide)
  | close => exact stopsAt_cons.2 (by decide)
  | @option name _ _ _ _ _ _ _ _ hname =>
    rw [stopsAt_append hname.nonempty]
    intro c hc
    exact not_isSpace_of_isWord (hname.chars c (List.mem_of_head? hc))

theorem Value.not_isSpace {written value behind : List Char} (h : Value written value behind) :
    StopsAt Text.isSpace (written ++ behind) := by
  cases h with
  | quoted hquote hvalue =>
    simp only [isQuote, Bool.or_eq_true, decide_eq_true_eq] at hquote
    rcases hquote with rfl | rfl <;> exact stopsAt_cons.2 (by decide)
  | bare hvalue hquote hlong =>
    obtain ⟨c, hc, hend⟩ := hlong
    cases written with
    | nil =>
      rcases hend with rfl | ⟨hne, -⟩
      · intro d hd
        rw [List.nil_append, hc] at hd
        cases hd
        decide
      · exact absurd rfl hne
    | cons d ds =>
      have hd := hvalue d List.mem_cons_self
      simp only [isBare, Bool.and_eq_true, Bool.not_eq_true'] at hd
      exact stopsAt_cons.2 hd.1

/-- The end of a tag, which may close it too. -/
def endsWith (closed : Bool) : List Char := if closed then ['/', '>'] else ['>']

theorem tagRest_nil_iff {last : List Char} {closed : Bool} :
    TagRest last [] closed ↔ last = endsWith closed := by
  constructor
  · intro h
    cases h <;> rfl
  · rintro rfl
    cases closed
    · exact .stop
    · exact .close

/-! ## Texts -/

/-- What an opening tag stands for, with the end that a tag brings along that closes itself. -/
def tagTokens (tag : String) (options : List (String × String)) (closed : Bool) : List Token :=
  .opening tag (.ofList options) :: if closed then [.closing tag] else []

inductive Document : List Char → List Token → Prop where
  | nil : Document [] []
  | text {cs rest : List Char} {runs : List String} {tokens : List Token} (hne : cs ≠ [])
      (hcs : ∀ c ∈ cs, isPlain c = true) (hnext : StopsAt isPlain rest) (hruns : RunsAs cs runs)
      (hrest : Document rest tokens) : Document (cs ++ rest) (.text runs :: tokens)
  | entity {name rest : List Char} {c : Char} {tokens : List Token} (hname : Reference name c)
      (hrest : Document rest tokens) :
      Document ('&' :: (name ++ ';' :: rest)) (.text [c.toString] :: tokens)
  | opening {name spaces written rest : List Char} {options : List (String × String)}
      {closed : Bool} {tokens : List Token} (hname : Word name (spaces ++ written))
      (hspaces : Spaces spaces) (hwritten : TagRest written options closed)
      (hrest : Document rest tokens) :
      Document ('<' :: (name ++ (spaces ++ (written ++ rest))))
        (tagTokens (Text.lowercase name) options closed ++ tokens)
  | closing {name spaces rest : List Char} {tokens : List Token}
      (hname : Word name (spaces ++ ['>'])) (hspaces : Spaces spaces)
      (hrest : Document rest tokens) :
      Document ('<' :: '/' :: (name ++ (spaces ++ '>' :: rest)))
        (.closing (Text.lowercase name) :: tokens)

end Markup
end Galley
