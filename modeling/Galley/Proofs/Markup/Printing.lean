import Mathlib
import Galley.Proofs.Markup.Acceptance

/-
Tokens written as text again.

`print` writes a text of one character by its number, any other text as it is, and a value in
quotes of the first kind it lacks.  What a text stands for can be printed (`Printable`), and what
can be printed stands for itself.  Both are said of the grammar (`Document.printable`,
`Printable.document`), so nothing here looks into the scanner.
-/

namespace Galley

namespace Markup

/-! ## Tables in order -/

/-- Keys in ascending order, each once. -/
def Ascending (entries : List (String × String)) : Prop := entries.Pairwise fun e f => e.1 < f.1

theorem ascending_insertEntry {entries : List (String × String)} (h : Ascending entries)
    (key value : String) : Ascending (Table.insertEntry key value entries) := by
  induction entries with
  | nil => exact List.pairwise_singleton _ _
  | cons f rest ih =>
    obtain ⟨k, v⟩ := f
    obtain ⟨hfirst, hrest⟩ := List.pairwise_cons.1 h
    rw [Table.insertEntry]
    split
    · next heq => exact List.pairwise_cons.2 ⟨fun e he => heq ▸ hfirst e he, hrest⟩
    · next hne =>
      split
      · next hlt =>
        refine List.pairwise_cons.2 ⟨?_, h⟩
        intro e he
        rcases List.mem_cons.1 he with rfl | he
        · exact hlt
        · exact lt_trans hlt (hfirst e he)
      · next hnot =>
        refine List.pairwise_cons.2 ⟨?_, ih hrest⟩
        intro e he
        rcases Table.mem_insertEntry he with rfl | he
        · exact lt_of_le_of_ne (not_lt.1 hnot) (Ne.symm hne)
        · exact hfirst e he

theorem insertEntry_of_last {key : String} {value : String} {entries : List (String × String)}
    (h : ∀ e ∈ entries, e.1 < key) :
    Table.insertEntry key value entries = entries ++ [(key, value)] := by
  induction entries with
  | nil => rfl
  | cons f rest ih =>
    obtain ⟨k, v⟩ := f
    have hk : k < key := h (k, v) List.mem_cons_self
    rw [Table.insertEntry, if_neg (ne_of_gt hk), if_neg (not_lt_of_gt hk),
      ih fun e he => h e (List.mem_cons_of_mem _ he)]
    rfl

theorem ascending_ofList (entries : List (String × String)) :
    Ascending (Table.ofList entries).entries := by
  induction entries using List.reverseRecOn with
  | nil => exact List.Pairwise.nil
  | append_singleton entries e ih =>
    rw [Table.ofList_concat]
    exact ascending_insertEntry ih e.1 e.2

/-- Entries in order make the table that holds them. -/
theorem ofList_of_ascending {entries : List (String × String)} (h : Ascending entries) :
    Table.ofList entries = { entries } := by
  induction entries using List.reverseRecOn with
  | nil => rfl
  | append_singleton entries e ih =>
    obtain ⟨hentries, -, hlast⟩ := List.pairwise_append.1 h
    rw [Table.ofList_concat, ih hentries]
    exact congrArg Table.mk
      (insertEntry_of_last fun f hf => hlast f hf e (List.mem_singleton_self e))

/-! ## The printer -/

/-- A character by its number. -/
def numeric (c : Char) : List Char := '&' :: '#' :: (Nat.toDigits 10 c.toNat ++ [';'])

def writtenText (cs : List Char) : List Char :=
  match cs with
  | [c] => numeric c
  | cs => cs

/-- In quotes of a kind the value lacks, and bare if it has both. -/
def writtenValue (value : List Char) : List Char :=
  if '"' ∉ value then '"' :: (value ++ ['"'])
  else if '\x27' ∉ value then '\x27' :: (value ++ ['\x27'])
  else value

/-- The options of a tag and its end. -/
def writtenOptions : List (String × String) → List Char
  | [] => ['>']
  | (name, value) :: rest =>
    ' ' :: (name.toList ++ '=' :: (writtenValue value.toList ++ writtenOptions rest))

/-- The characters of a text. -/
def characters (runs : List String) : List Char := runs.flatMap String.toList

def Token.written : Token → List Char
  | .text runs => writtenText (characters runs)
  | .opening tag options => '<' :: (tag.toList ++ writtenOptions options.entries)
  | .closing tag => '<' :: '/' :: (tag.toList ++ ['>'])

def print (tokens : List Token) : String := String.ofList (tokens.flatMap Token.written)

/-! ## What can be printed -/

/-- A name of a tag or an option as tokens have it. -/
structure IsName (name : String) : Prop where
  nonempty : name.toList ≠ []
  chars : ∀ c ∈ name.toList, isWord c = true
  lower : Text.lowercase name.toList = name

/-- A value that lacks a quote, or needs none. -/
def Writable (value : List Char) : Prop :=
  '"' ∉ value ∨ '\x27' ∉ value ∨
    value ≠ [] ∧ (∀ c ∈ value, isBare c = true) ∧ StopsAt isQuote value

/-- Text of more than one character, which is written as it is. -/
def Token.Verbatim : Token → Prop
  | .text runs => 2 ≤ (characters runs).length
  | _ => False

inductive Canonical : Token → Prop where
  | character (c : Char) : Canonical (.text [c.toString])
  | text {runs : List String} (hlong : 2 ≤ (characters runs).length)
      (hplain : ∀ c ∈ characters runs, isPlain c = true) (hruns : RunsAs (characters runs) runs) :
      Canonical (.text runs)
  | opening {tag : String} {options : Attributes} (htag : IsName tag)
      (hnames : ∀ e ∈ options.entries, IsName e.1)
      (hvalues : ∀ e ∈ options.entries, Writable e.2.toList)
      (hascending : Ascending options.entries) : Canonical (.opening tag options)
  | closing {tag : String} (htag : IsName tag) : Canonical (.closing tag)

/-- Each token alone is as a scanner gives it, and no text is cut in two. -/
structure Printable (tokens : List Token) : Prop where
  canonical : ∀ token ∈ tokens, Canonical token
  apart : tokens.IsChain fun t u => t.Verbatim → ¬ u.Verbatim

/-! ## What texts stand for can be printed -/

theorem classOf_space : classOf ' ' = .space := by decide

/-- A run of white space becomes one space, so the text of runs begins with the same class. -/
theorem RunsAs.classOf_head {cs : List Char} {runs : List String} (h : RunsAs cs runs) :
    (characters runs).head?.map classOf = cs.head?.map classOf := by
  cases h with
  | nil => rfl
  | @run piece rest runs k hne hk hnext hrest =>
    obtain ⟨c, ds, rfl⟩ := List.exists_cons_of_ne_nil hne
    have hc : classOf c = k := hk c List.mem_cons_self
    by_cases hspace : k = .space
    · rw [if_pos hspace]
      show some (classOf ' ') = some (classOf c)
      rw [hc, hspace]
      rfl
    · rw [if_neg hspace]
      simp [characters]

theorem RunsAs.characters {cs : List Char} {runs : List String} (h : RunsAs cs runs) :
    RunsAs (characters runs) runs := by
  induction h with
  | nil => exact .nil
  | @run piece rest runs k hne hk hnext hrest ih =>
    have hnext' : ∀ c ∈ (Markup.characters runs).head?, classOf c ≠ k := by
      intro c hc heq
      have hhead := hrest.classOf_head
      rw [Option.mem_def.1 hc, Option.map_some, eq_comm, Option.map_eq_some_iff] at hhead
      obtain ⟨d, hd, hclass⟩ := hhead
      exact hnext d hd (hclass.trans heq)
    by_cases hspace : k = .space
    · rw [if_pos hspace]
      have h := @RunsAs.run [' '] _ _ k (by simp) (by simpa [hspace] using classOf_space) hnext' ih
      rwa [if_pos hspace] at h
    · rw [if_neg hspace]
      have h := RunsAs.run k hne hk hnext' ih
      rw [if_neg hspace] at h
      simpa [Markup.characters] using h

theorem RunsAs.isPlain {cs : List Char} {runs : List String} (h : RunsAs cs runs)
    (hcs : ∀ c ∈ cs, isPlain c = true) : ∀ c ∈ Markup.characters runs, isPlain c = true := by
  induction h with
  | nil => simp [Markup.characters]
  | @run piece rest runs k hne hk hnext hrest ih =>
    intro c hc
    obtain ⟨run, hrun, hc⟩ := List.mem_flatMap.1 hc
    rcases List.mem_cons.1 hrun with rfl | hrun
    · split at hc
      · obtain rfl : c = ' ' := by simpa using hc
        decide
      · exact hcs c (List.mem_append_left _ (by simpa using hc))
    · exact ih (fun d hd => hcs d (List.mem_append_right _ hd))
        c (List.mem_flatMap.2 ⟨run, hrun, hc⟩)

/-- The runs of a single character are that character. -/
theorem RunsAs.eq_singleton {c : Char} {runs : List String} (h : RunsAs [c] runs)
    (hc : Markup.characters runs = [c]) : runs = [c.toString] := by
  obtain rfl : runs = [if classOf c = .space then " " else String.ofList [c]] := h.eq_runsOf
  have hrun : (if classOf c = .space then " " else String.ofList [c]).toList = [c] := by
    simpa [Markup.characters] using hc
  have htext : (if classOf c = .space then " " else String.ofList [c]) = c.toString :=
    String.toList_inj.1 (hrun.trans (by simp [Char.toString]))
  rw [htext]

theorem RunsAs.canonical {cs : List Char} {runs : List String} (h : RunsAs cs runs) (hne : cs ≠ [])
    (hcs : ∀ c ∈ cs, Markup.isPlain c = true) : Canonical (.text runs) := by
  have hruns := h.characters
  by_cases hlong : 2 ≤ (Markup.characters runs).length
  · exact .text hlong (h.isPlain hcs) hruns
  · have hhead := h.classOf_head
    cases hchars : Markup.characters runs with
    | nil =>
      rw [hchars] at hhead
      obtain ⟨c, ds, rfl⟩ := List.exists_cons_of_ne_nil hne
      cases hhead
    | cons c ds =>
      obtain rfl : ds = [] := by
        rw [hchars] at hlong
        cases ds with
        | nil => rfl
        | cons _ _ => simp at hlong
      rw [hchars] at hruns
      rw [hruns.eq_singleton hchars]
      exact .character c

theorem isWord_toLower {c : Char} (h : isWord c = true) : isWord c.toLower = true := by
  by_cases hupper : c.isUpper = true
  · have halpha : c.toLower.isAlpha = true := by
      rw [Char.isAlpha_toLower_eq_isAlpha, Char.isAlpha, hupper, Bool.true_or]
    simp [isWord, Char.isAlphanum, halpha]
  · rwa [Char.toLower_eq_of_not_isUpper hupper]

theorem isName_lowercase {name behind : List Char} (h : Word name behind) :
    IsName (Text.lowercase name) := by
  have hlist : (Text.lowercase name).toList = name.map Char.toLower := String.toList_ofList
  refine ⟨?_, ?_, ?_⟩
  · rw [hlist]
    simpa using h.nonempty
  · rw [hlist]
    intro c hc
    obtain ⟨d, hd, rfl⟩ := List.mem_map.1 hc
    exact isWord_toLower (h.chars d hd)
  · rw [hlist]
    unfold Text.lowercase
    rw [List.map_map]
    exact congrArg String.ofList
      (List.map_congr_left fun c _ => Char.toLower_toLower_eq_toLower c)

theorem Value.writable {written value behind : List Char} (h : Value written value behind) :
    Writable value := by
  cases h with
  | @quoted quote value behind hquote hvalue =>
    simp only [isQuote, Bool.or_eq_true, decide_eq_true_eq] at hquote
    rcases hquote with rfl | rfl
    · exact Or.inl hvalue
    · exact Or.inr (Or.inl hvalue)
  | bare hvalue hquote hlong =>
    cases written with
    | nil => exact Or.inl (by simp)
    | cons c cs => exact Or.inr (Or.inr ⟨by simp, hvalue, hquote⟩)

theorem TagRest.canonical {written : List Char} {options : List (String × String)} {closed : Bool}
    (h : TagRest written options closed) :
    ∀ e ∈ options, IsName e.1 ∧ Writable e.2.toList := by
  induction h with
  | stop => simp
  | close => simp
  | option hname _ _ hvalue _ _ ih =>
    intro e he
    rcases List.mem_cons.1 he with rfl | he
    · refine ⟨isName_lowercase hname, ?_⟩
      rw [String.toList_ofList]
      exact hvalue.writable
    · exact ih e he

theorem not_verbatim_character (c : Char) : ¬ (Token.text [c.toString]).Verbatim := by
  simp [Token.Verbatim, characters, Char.toString]

/-- Where no text goes on, no text comes first. -/
theorem Document.not_verbatim {cs : List Char} {tokens : List Token} (h : Document cs tokens)
    (hcs : StopsAt isPlain cs) : ∀ token ∈ tokens.head?, ¬ token.Verbatim := by
  cases h with
  | nil => simp
  | text hne hplain _ _ _ =>
    rw [stopsAt_append hne] at hcs
    obtain ⟨c, ds, rfl⟩ := List.exists_cons_of_ne_nil hne
    have hc := hplain c List.mem_cons_self
    rw [stopsAt_cons.1 hcs] at hc
    cases hc
  | @entity name rest c tokens hname hrest =>
    rintro token ⟨⟩
    exact not_verbatim_character c
  | opening =>
    rintro token ⟨⟩
    exact fun h => h
  | closing =>
    rintro token ⟨⟩
    exact fun h => h

theorem Printable.cons {token : Token} {tokens : List Token} (htoken : Canonical token)
    (hapart : token.Verbatim → ∀ u ∈ tokens.head?, ¬ u.Verbatim) (h : Printable tokens) :
    Printable (token :: tokens) where
  canonical := List.forall_mem_cons.2 ⟨htoken, h.canonical⟩
  apart := List.isChain_cons.2 ⟨fun u hu ht => hapart ht u hu, h.apart⟩

theorem Document.printable {cs : List Char} {tokens : List Token} (h : Document cs tokens) :
    Printable tokens := by
  induction h with
  | nil => exact ⟨by simp, List.IsChain.nil⟩
  | text hne hcs hnext hruns hrest ih =>
    exact .cons (hruns.canonical hne hcs) (fun _ => hrest.not_verbatim hnext) ih
  | @entity name rest c tokens hname hrest ih =>
    exact .cons (.character c) (fun h => absurd h (not_verbatim_character c)) ih
  | @opening name spaces written rest options closed tokens hname hspaces hwritten hrest ih =>
    have htag := isName_lowercase hname
    have hoptions := hwritten.canonical
    have hopening : Canonical (.opening (Text.lowercase name) (.ofList options)) :=
      .opening htag (fun e he => (hoptions e (Table.mem_of_mem_ofList he)).1)
        (fun e he => (hoptions e (Table.mem_of_mem_ofList he)).2) (ascending_ofList options)
    refine .cons hopening False.elim ?_
    cases closed with
    | false => exact ih
    | true => exact .cons (.closing htag) False.elim ih
  | closing hname hspaces hrest ih => exact .cons (.closing (isName_lowercase hname)) False.elim ih

/-! ## What can be printed stands for itself -/

/-- One more digit at the end. -/
theorem Writes.concat {base : Nat} {digit? : Char → Option Nat} {digits : List Char} {n d : Nat}
    {c : Char} (h : Writes base digit? digits n) (hc : digit? c = some d) :
    Writes base digit? (digits ++ [c]) (base * n + d) where
  nonempty := by simp
  value := by
    obtain ⟨values, hvalues, rfl⟩ := h.value
    refine ⟨values ++ [d], by simp [hvalues, hc], ?_⟩
    rw [List.reverse_append, List.reverse_singleton, List.singleton_append, Nat.ofDigits_cons]
    omega

theorem decimalValue?_digitChar {d : Nat} (h : d < 10) :
    decimalValue? (Nat.digitChar d) = some d := by
  interval_cases d <;> rfl

theorem writes_toDigits (n : Nat) : Writes 10 decimalValue? (Nat.toDigits 10 n) n := by
  induction n using Nat.strong_induction_on with
  | _ n ih =>
    by_cases hn : n < 10
    · rw [Nat.toDigits_of_lt_base hn]
      exact ⟨by simp, [n], by simp [decimalValue?_digitChar hn], by simp⟩
    · have hlast : n % 10 < 10 := Nat.mod_lt n (by omega)
      have h := (ih (n / 10) (by omega)).concat (decimalValue?_digitChar hlast)
      have hdigits : Nat.toDigits 10 (n / 10) ++ [Nat.digitChar (n % 10)] = Nat.toDigits 10 n := by
        rw [← Nat.toDigits_of_lt_base hlast,
          Nat.toDigits_append_toDigits (by omega) (by omega) hlast, Nat.div_add_mod]
      rwa [hdigits, Nat.div_add_mod] at h

theorem reference_numeric (c : Char) : Reference ('#' :: Nat.toDigits 10 c.toNat) c := by
  have h := Reference.decimal (writes_toDigits c.toNat) c.valid
  rwa [Char.ofNat_toNat] at h

theorem Writable.value {value : List Char} (h : Writable value) {behind : List Char} {c : Char}
    (hbehind : behind.head? = some c) (hc : c = '>' ∨ c = ' ') :
    Value (writtenValue value) value behind := by
  unfold writtenValue
  split
  · next hquote => exact .quoted (by decide) hquote
  · next hdouble =>
    split
    · next hquote => exact .quoted (by decide) hquote
    · next hsingle =>
      rcases h with h | h | ⟨hne, hvalue, hquote⟩
      · exact absurd h hdouble
      · exact absurd h hsingle
      · refine .bare hvalue hquote ⟨c, hbehind, hc.imp_right ?_⟩
        rintro rfl
        exact ⟨hne, by decide⟩

/-- Where options are printed, a space comes first, or the end of the tag. -/
theorem writtenOptions_head (options : List (String × String)) :
    ∃ c, (writtenOptions options).head? = some c ∧ (c = '>' ∨ c = ' ') := by
  cases options with
  | nil => exact ⟨'>', rfl, Or.inl rfl⟩
  | cons e options => exact ⟨' ', rfl, Or.inr rfl⟩

theorem IsName.word {name behind : List Char} {s : String} (h : IsName s) {c : Char}
    (hname : s.toList = name) (hbehind : behind.head? = some c) (hc : isWord c = false) :
    Word name behind where
  nonempty := hname ▸ h.nonempty
  chars := hname ▸ h.chars
  maximal := by
    intro d hd
    rw [Option.mem_def, hbehind] at hd
    cases hd
    exact hc

theorem exists_tagRest {options : List (String × String)} (hnames : ∀ e ∈ options, IsName e.1)
    (hvalues : ∀ e ∈ options, Writable e.2.toList) :
    ∃ spaces written, writtenOptions options = spaces ++ written ∧ Spaces spaces ∧
      TagRest written options false := by
  induction options with
  | nil => exact ⟨[], ['>'], rfl, by simp [Spaces], .stop⟩
  | cons e options ih =>
    obtain ⟨name, value⟩ := e
    have hname : IsName name := hnames _ List.mem_cons_self
    obtain ⟨more, rest, hrest, hmore, htag⟩ := ih
      (fun e he => hnames e (List.mem_cons_of_mem _ he))
      (fun e he => hvalues e (List.mem_cons_of_mem _ he))
    obtain ⟨c, hc, hcend⟩ := writtenOptions_head options
    rw [hrest] at hc
    have hvalue : Value (writtenValue value.toList) value.toList (more ++ rest) :=
      (hvalues _ List.mem_cons_self).value hc hcend
    have hword : Word name.toList
        ([] ++ '=' :: ([] ++ (writtenValue value.toList ++ (more ++ rest)))) :=
      hname.word rfl rfl (by decide)
    have htag' := TagRest.option hword (by simp [Spaces]) (by simp [Spaces]) hvalue hmore htag
    rw [hname.lower, String.ofList_toList] at htag'
    refine ⟨[' '], _, ?_, by simp [Spaces]; decide, htag'⟩
    rw [writtenOptions, hrest]
    rfl

/-- Only a text written as it is can come right behind another one. -/
theorem Canonical.stopsAt_written {token : Token} (h : Canonical token) (hnot : ¬ token.Verbatim)
    (rest : List Char) : StopsAt isPlain (token.written ++ rest) := by
  cases h with
  | character c =>
    have hc : characters [c.toString] = [c] := by simp [characters, Char.toString]
    show StopsAt isPlain (writtenText (characters [c.toString]) ++ rest)
    rw [hc]
    exact stopsAt_cons.2 (by decide)
  | text hlong _ _ => exact absurd hlong hnot
  | opening => exact stopsAt_cons.2 (by decide)
  | closing => exact stopsAt_cons.2 (by decide)

theorem writtenText_of_long {cs : List Char} (h : 2 ≤ cs.length) : writtenText cs = cs := by
  unfold writtenText
  split
  · simp at h
  · rfl

theorem Printable.document {tokens : List Token} (h : Printable tokens) :
    Document (tokens.flatMap Token.written) tokens := by
  induction tokens with
  | nil => exact .nil
  | cons token tokens ih =>
    obtain ⟨htoken, htokens⟩ := List.forall_mem_cons.1 h.canonical
    obtain ⟨hapart, hchain⟩ := List.isChain_cons.1 h.apart
    have hrest := ih ⟨htokens, hchain⟩
    rw [List.flatMap_cons]
    cases htoken with
    | character c =>
      have hc : characters [c.toString] = [c] := by simp [characters, Char.toString]
      have hwritten : (Token.text [c.toString]).written = numeric c := by
        show writtenText (characters [c.toString]) = numeric c
        rw [hc]
        rfl
      rw [hwritten]
      have hdocument := Document.entity (reference_numeric c) hrest
      simpa [numeric] using hdocument
    | @text runs hlong hplain hruns =>
      have hwritten : (Token.text runs).written = characters runs := writtenText_of_long hlong
      rw [hwritten]
      refine .text ?_ hplain ?_ hruns hrest
      · intro hnil
        rw [hnil] at hlong
        simp at hlong
      · cases tokens with
        | nil => simp [StopsAt]
        | cons next more =>
          rw [List.flatMap_cons]
          exact (htokens next List.mem_cons_self).stopsAt_written (hapart next rfl hlong) _
    | @opening tag options htag hnames hvalues hascending =>
      obtain ⟨spaces, written, hwritten, hspaces, hrestOfTag⟩ := exists_tagRest hnames hvalues
      obtain ⟨c, hc, hcend⟩ := writtenOptions_head options.entries
      rw [hwritten] at hc
      have hword : Word tag.toList (spaces ++ written) := by
        refine htag.word rfl hc ?_
        rcases hcend with rfl | rfl <;> decide
      have hdocument := Document.opening hword hspaces hrestOfTag hrest
      rw [htag.lower] at hdocument
      have htokens' : tagTokens tag options.entries false ++ tokens =
          .opening tag options :: tokens := by
        show Token.opening tag (Table.ofList options.entries) :: tokens = _
        rw [ofList_of_ascending hascending]
      rw [htokens'] at hdocument
      have hprinted : (Token.opening tag options).written =
          '<' :: (tag.toList ++ (spaces ++ written)) := by
        show '<' :: (tag.toList ++ writtenOptions options.entries) = _
        rw [hwritten]
      rw [hprinted]
      simpa using hdocument
    | @closing tag htag =>
      have hword : Word tag.toList ([] ++ ['>']) := htag.word rfl rfl (by decide)
      have hdocument := Document.closing hword (by simp [Spaces]) hrest
      rw [htag.lower] at hdocument
      simpa [Token.written] using hdocument

theorem toList_print (tokens : List Token) :
    (print tokens).toList = tokens.flatMap Token.written := String.toList_ofList

/-- Printed tokens come back if a text stands for them, and just the lists that can be printed
come back. -/
theorem scan_print (text : String) (tokens : List Token) :
    ((Scanner.ofText text).tokens.1 = tokens.map .ok →
      (Scanner.ofText (print tokens)).tokens.1 = tokens.map .ok) ∧
    (Printable tokens ↔ (Scanner.ofText (print tokens)).tokens.1 = tokens.map .ok) := by
  have hprint (h : Printable tokens) :
      (Scanner.ofText (print tokens)).tokens.1 = tokens.map .ok := by
    rw [Scanner.tokens_iff, toList_print]
    exact h.document
  refine ⟨fun h => hprint (Scanner.tokens_iff.1 h).printable, hprint, fun h => ?_⟩
  exact (Scanner.tokens_iff.1 h).printable

/-- A value with both quotes, an option written twice, and text before an entity. -/
theorem scan_print_tag :
    (Scanner.ofText (print [.text ["a", " "], .text ["&"],
      .opening "b" (.ofList [("c", "x\"\x27/")]), .closing "b"])).tokens.1 =
      [.ok (.text ["a", " "]), .ok (.text ["&"]),
        .ok (.opening "b" (.ofList [("c", "x\"\x27/")])), .ok (.closing "b")] :=
  (scan_print "a  &amp;<B C=1 c=x\"\x27/></b>" [.text ["a", " "], .text ["&"],
    .opening "b" (.ofList [("c", "x\"\x27/")]), .closing "b"]).1 (by decide +kernel)

end Markup
end Galley
