import Galley.Decimal.Reading
import Galley.Proofs.Pdf.Bytes

/-
References as they are written.

A reader takes the body of an object word by word, passes over literal strings and stops at a
stream.  It finds a reference where a number, a zero and the letter R stand in a row (`references`).
`Shows` tells what it finds in a part of a body, and puts parts together.
-/

namespace Galley
namespace Pdf

/-! ## The reader -/

def isBracket (c : Char) : Bool := c ∈ ['[', ']', '<', '>', '{', '}']

/-- Characters that no word holds behind its first. -/
def separates (c : Char) : Bool := c.isWhitespace || isBracket c || c == '(' || c == '/'

inductive Reading where
  /-- Outside of strings, behind the first characters of a word, the last of them first. -/
  | word (read : List Char)
  /-- In a string, within so many parentheses of its own. -/
  | string (depth : Nat)
  /-- Behind a backslash of a string. -/
  | escape (depth : Nat)

/-- The word that has been read, if there is one. -/
def finish (read : List Char) : List (List Char) := if read = [] then [] else [read.reverse]

/-- The words of a text.  A bracket is a word of its own, and a string stands as its first
parenthesis. -/
def words : Reading → List Char → List (List Char)
  | .word read, [] => finish read
  | .string _, [] => []
  | .escape _, [] => []
  | .word read, c :: cs =>
    if c.isWhitespace then finish read ++ words (.word []) cs
    else if isBracket c then finish read ++ [c] :: words (.word []) cs
    else if c = '(' then finish read ++ ['('] :: words (.string 0) cs
    else if c = '/' then finish read ++ words (.word ['/']) cs
    else words (.word (c :: read)) cs
  | .string depth, c :: cs =>
    if c = '\\' then words (.escape depth) cs
    else if c = '(' then words (.string (depth + 1)) cs
    else if c = ')' then
      if depth = 0 then words (.word []) cs else words (.string (depth - 1)) cs
    else words (.string depth) cs
  | .escape depth, _ :: cs => words (.string depth) cs

/-- Characters of a word that stand for themselves as bytes: what is printable and no delimiter. -/
def plain (c : Char) : Bool :=
  !separates c && c ≠ ')' && c ≠ '%' && 0x21 ≤ c.toNat && c.toNat ≤ 0x7e

def streamWord : List Char := ['s', 't', 'r', 'e', 'a', 'm']

/-- Numbers of the objects that words refer to, behind two words that came before. -/
def referencesIn : List Char → List Char → List (List Char) → List Nat
  | _, _, [] => []
  | first, second, word :: rest =>
    if word = streamWord then []
    else if second = ['0'] ∧ word = ['R'] then
      (Decimal.digits? first).toList ++ referencesIn second word rest
    else referencesIn second word rest

/-- Numbers of the objects that the body of an object refers to. -/
def references (body : List UInt8) : List Nat :=
  referencesIn [] [] (words (.word []) (body.map asciiChar))

/-! ## Words in a text -/

/-- What follows a word and does not belong to it. -/
def Ends (rest : List Char) : Prop := ∀ c ∈ rest.head?, separates c = true

theorem ends_cons {c : Char} (h : separates c = true) (rest : List Char) : Ends (c :: rest) := by
  intro d hd
  cases hd
  exact h

theorem words_ends {rest : List Char} (h : Ends rest) (read : List Char) :
    words (.word read) rest = finish read ++ words (.word []) rest := by
  cases rest with
  | nil => simp [words, finish]
  | cons c rest =>
    have hc := h c rfl
    simp only [separates, Bool.or_eq_true, beq_iff_eq] at hc
    simp only [words, finish, if_true, List.nil_append]
    split
    · rfl
    · split
      · rfl
      · split
        · rfl
        · have hslash : c = '/' := by tauto
          rw [if_pos hslash, if_pos hslash]

theorem words_read {cs : List Char} (h : ∀ c ∈ cs, separates c = false) (read rest : List Char) :
    words (.word read) (cs ++ rest) = words (.word (cs.reverse ++ read)) rest := by
  induction cs generalizing read with
  | nil => rfl
  | cons c cs ih =>
    obtain ⟨hc, hcs⟩ := List.forall_mem_cons.1 h
    simp only [separates, Bool.or_eq_false_iff, beq_eq_false_iff_ne] at hc
    obtain ⟨⟨⟨hwhite, hbracket⟩, hopen⟩, hslash⟩ := hc
    rw [List.cons_append, words, hwhite, hbracket, if_neg hopen, if_neg hslash]
    simp only [Bool.false_eq_true, if_false]
    rw [ih hcs, List.reverse_cons, List.append_assoc]
    rfl

/-- Characters that are read as one word, which neither marks a reference nor begins a stream. -/
structure PlainWord (word : List Char) : Prop where
  nonempty : word ≠ []
  plain : word.all plain = true
  noMark : word ≠ ['R']
  noStream : word ≠ streamWord

instance (word : List Char) : Decidable (PlainWord word) :=
  decidable_of_iff
    (word ≠ [] ∧ word.all plain = true ∧ word ≠ ['R'] ∧ word ≠ streamWord)
    ⟨fun ⟨h₁, h₂, h₃, h₄⟩ => ⟨h₁, h₂, h₃, h₄⟩, fun ⟨h₁, h₂, h₃, h₄⟩ => ⟨h₁, h₂, h₃, h₄⟩⟩

theorem together_of_plain {cs : List Char} (h : cs.all plain = true) :
    ∀ c ∈ cs, separates c = false := by
  intro c hc
  have := List.all_eq_true.1 h c hc
  simp_all [plain]

theorem ascii_of_plain {cs : List Char} (h : cs.all plain = true) : ∀ c ∈ cs, c.toNat < 128 := by
  intro c hc
  have := List.all_eq_true.1 h c hc
  simp only [plain, Bool.and_eq_true, decide_eq_true_eq] at this
  omega

theorem words_word {word rest : List Char} (hne : word ≠ [])
    (h : ∀ c ∈ word, separates c = false) (hrest : Ends rest) :
    words (.word []) (word ++ rest) = word :: words (.word []) rest := by
  rw [words_read h, words_ends hrest, List.append_nil, finish, if_neg (by simpa using hne),
    List.reverse_reverse, List.singleton_append]

/-- A word that begins with a slash. -/
theorem words_name {cs rest : List Char} (h : ∀ c ∈ cs, separates c = false) (hrest : Ends rest) :
    words (.word []) (('/' :: cs) ++ rest) = ('/' :: cs) :: words (.word []) rest := by
  have hslash : words (.word []) (('/' :: cs) ++ rest) = words (.word ['/']) (cs ++ rest) := rfl
  rw [hslash, words_read h, words_ends hrest, finish, if_neg (by simp), List.reverse_append,
    List.reverse_reverse]
  rfl

/-! ## Numbers -/

def numeric (c : Char) : Bool := c.isDigit || c == '.' || c == '-'

/-- A character of ASCII by the two hexadecimal digits of its code. -/
theorem forall_ascii {p : Char → Prop} (h : ∀ i < 8, ∀ j < 16, p (Char.ofNat (16 * i + j)))
    {c : Char} (hc : c.toNat < 128) : p c := by
  have hdigits := h (c.toNat / 16) (by omega) (c.toNat % 16) (by omega)
  rwa [Nat.div_add_mod, Char.ofNat_toNat] at hdigits

theorem plain_of_numeric {c : Char} (h : numeric c = true) : plain c = true := by
  have hascii : c.toNat < 128 := by
    simp only [numeric, Bool.or_eq_true, beq_iff_eq] at h
    rcases h with (h | rfl) | rfl
    · exact digit_lt h
    · decide
    · decide
  exact forall_ascii (p := fun c => numeric c = true → plain c = true) (by decide +kernel) hascii h

theorem plainWord_of_numeric {cs : List Char} (hne : cs ≠ []) (h : ∀ c ∈ cs, numeric c = true) :
    PlainWord cs where
  nonempty := hne
  plain := List.all_eq_true.2 fun c hc => plain_of_numeric (h c hc)
  noMark := by
    rintro rfl
    exact absurd (h 'R' (by simp)) (by decide)
  noStream := by
    rintro rfl
    exact absurd (h 's' (by simp [streamWord])) (by decide)

theorem plainWord_toDigits (n : Nat) : PlainWord (Nat.toDigits 10 n) := by
  refine plainWord_of_numeric Nat.toDigits_ne_nil fun c hc => ?_
  simp [numeric, isDigit_toDigits c hc]

theorem digits?_toDigits (n : Nat) : Decimal.digits? (Nat.toDigits 10 n) = some n := by
  have hall : (Nat.toDigits 10 n).all Char.isDigit = true := List.all_eq_true.2 isDigit_toDigits
  have hvalue : Decimal.ofDigits (Nat.toDigits 10 n) = n := Nat.ofDigitChars_ten_toDigits
  unfold Decimal.digits?
  rw [hall, hvalue]
  simp [Nat.toDigits_ne_nil]

/-! ## Strings and names -/

/-- A byte by its two hexadecimal digits. -/
theorem forall_byte {p : UInt8 → Prop} (h : ∀ i < 16, ∀ j < 16, p (UInt8.ofNat (16 * i + j)))
    (b : UInt8) : p b := by
  have hb := b.toNat_lt
  have hdigits := h (b.toNat / 16) (by omega) (b.toNat % 16) (by omega)
  rwa [Nat.div_add_mod, UInt8.ofNat_toNat] at hdigits

/-- In a string, a character that is no more than that. -/
def quiet (c : Char) : Bool := c ≠ '\\' ∧ c ≠ '(' ∧ c ≠ ')'

theorem words_quiet {cs : List Char} (h : ∀ c ∈ cs, quiet c = true) (rest : List Char) :
    words (.string 0) (cs ++ rest) = words (.string 0) rest := by
  induction cs with
  | nil => rfl
  | cons c cs ih =>
    obtain ⟨hc, hcs⟩ := List.forall_mem_cons.1 h
    simp only [quiet, decide_eq_true_eq] at hc
    rw [List.cons_append, words, if_neg hc.1, if_neg hc.2.1, if_neg hc.2.2, ih hcs]

theorem escapeByte_cases : ∀ b : UInt8,
    (escapeByte b).all quiet = true ∨
      (escapeByte b).head? = some '\\' ∧ 2 ≤ (escapeByte b).length ∧
        ((escapeByte b).drop 2).all quiet = true :=
  forall_byte (by decide +kernel)

/-- The escaped bytes of a string do not end it. -/
theorem words_escapeByte (b : UInt8) (rest : List Char) :
    words (.string 0) (escapeByte b ++ rest) = words (.string 0) rest := by
  rcases escapeByte_cases b with hquiet | ⟨hhead, hlength, hquiet⟩
  · exact words_quiet (List.all_eq_true.1 hquiet) rest
  · cases hcs : escapeByte b with
    | nil => simp [hcs] at hlength
    | cons backslash cs =>
      cases cs with
      | nil => simp [hcs] at hlength
      | cons c cs =>
        rw [hcs] at hhead hquiet
        cases hhead
        exact words_quiet (List.all_eq_true.1 hquiet) rest

theorem ascii_escapeByte : ∀ b : UInt8, (escapeByte b).all (fun c => c.toNat < 128) = true :=
  forall_byte (by decide +kernel)

theorem plain_nameByte : ∀ b : UInt8, (nameByte b).all plain = true :=
  forall_byte (by decide +kernel)

theorem plain_nameText (s : String) : (nameText s).toList.all plain = true := by
  rw [nameText, String.toList_ofList, List.all_flatMap]
  exact List.all_eq_true.2 fun b _ => plain_nameByte b

theorem words_string (data : List UInt8) (rest : List Char) :
    words (.string 0) (data.flatMap escapeByte ++ ')' :: rest) = words (.word []) rest := by
  induction data with
  | nil => rfl
  | cons b data ih => rw [List.flatMap_cons, List.append_assoc, words_escapeByte, ih]

/-! ## Texts and their references -/

/-- Read in a body, a text gives the references `refs`, whatever has been read before and follows
after it; what follows has to be of the kind `next`. -/
structure Shows (next : List Char → Prop) (text : List Char) (refs : List Nat) : Prop where
  ascii : ∀ c ∈ text, c.toNat < 128
  found : ∀ first second rest, next rest → ∃ first' second',
    referencesIn first second (words (.word []) (text ++ rest)) =
      refs ++ referencesIn first' second' (words (.word []) rest)

namespace Shows

/-- For a text whose end can be told without what follows. -/
def Anything (_ : List Char) : Prop := True

variable {next : List Char → Prop}

theorem append {mid : List Char → Prop} {s t : List Char} {refs more : List Nat}
    (hs : Shows mid s refs) (ht : Shows next t more) (hmid : ∀ rest, next rest → mid (t ++ rest)) :
    Shows next (s ++ t) (refs ++ more) where
  ascii := List.forall_mem_append.2 ⟨hs.ascii, ht.ascii⟩
  found := by
    intro first second rest hrest
    obtain ⟨first', second', hfirst⟩ := hs.found first second (t ++ rest) (hmid rest hrest)
    obtain ⟨first'', second'', hsecond⟩ := ht.found first' second' rest hrest
    exact ⟨first'', second'', by rw [List.append_assoc, hfirst, hsecond, List.append_assoc]⟩

theorem nil : Shows next [] [] where
  ascii := by simp
  found := fun first second _ _ => ⟨first, second, rfl⟩

theorem mono {text : List Char} {refs : List Nat} {next' : List Char → Prop}
    (h : Shows next text refs) (hnext : ∀ rest, next' rest → next rest) :
    Shows next' text refs where
  ascii := h.ascii
  found := fun first second rest hrest => h.found first second rest (hnext rest hrest)

/-- A text that is read as one word shows no reference, if the word is no mark. -/
theorem of_words {text : List Char} (word : List Char) (hascii : ∀ c ∈ text, c.toNat < 128)
    (hmark : word ≠ ['R']) (hstream : word ≠ streamWord)
    (h : ∀ rest, next rest →
      words (.word []) (text ++ rest) = word :: words (.word []) rest) :
    Shows next text [] where
  ascii := hascii
  found := by
    intro first second rest hrest
    refine ⟨second, word, ?_⟩
    rw [h rest hrest, referencesIn, if_neg hstream, if_neg fun hboth => hmark hboth.2]
    rfl

theorem word {text : List Char} (h : PlainWord text) : Shows Ends text [] :=
  of_words text (ascii_of_plain h.plain) h.noMark h.noStream
    fun _ => words_word h.nonempty (together_of_plain h.plain)

theorem bracket {c : Char} (h : isBracket c = true) : Shows Anything [c] [] := by
  have hplain : c.toNat < 128 ∧ c.isWhitespace = false ∧ c ≠ 'R' := by
    have hcases : c ∈ ['[', ']', '<', '>', '{', '}'] := of_decide_eq_true h
    simp only [List.mem_cons, List.not_mem_nil, or_false] at hcases
    rcases hcases with rfl | rfl | rfl | rfl | rfl | rfl <;> decide
  refine of_words [c] (by simpa using hplain.1) (by simpa using hplain.2.2)
    (by simp [streamWord]) ?_
  intro rest _
  rw [List.singleton_append, words, hplain.2.1, h]
  rfl

theorem space : Shows Anything [' '] [] where
  ascii := List.forall_mem_singleton.2 (by decide)
  found := fun first second _ _ => ⟨first, second, rfl⟩

/-- What follows a bracket or a space is read on its own. -/
theorem then_text {s t : List Char} {refs more : List Nat} (hs : Shows Anything s refs)
    (ht : Shows next t more) : Shows next (s ++ t) (refs ++ more) :=
  hs.append ht fun _ _ => trivial

theorem name (s : String) : Shows Ends ('/' :: (nameText s).toList) [] := by
  have hplain := plain_nameText s
  refine of_words ('/' :: (nameText s).toList)
    (List.forall_mem_cons.2 ⟨by decide, ascii_of_plain hplain⟩) (by simp) (by simp [streamWord]) ?_
  exact fun _ => words_name (together_of_plain hplain)

theorem string (data : List UInt8) :
    Shows Anything ('(' :: ((escapeBytes data).toList ++ [')'])) [] := by
  have hascii : ∀ c ∈ data.flatMap escapeByte, c.toNat < 128 := by
    intro c hc
    obtain ⟨b, -, hb⟩ := List.mem_flatMap.1 hc
    simpa using List.all_eq_true.1 (ascii_escapeByte b) c hb
  unfold escapeBytes
  rw [String.toList_ofList]
  refine of_words ['('] ?_ (by simp) (by simp [streamWord]) ?_
  · exact List.forall_mem_cons.2 ⟨by decide,
      List.forall_mem_append.2 ⟨hascii, List.forall_mem_singleton.2 (by decide)⟩⟩
  · intro rest _
    have hopen : words (.word []) ('(' :: (data.flatMap escapeByte ++ [')']) ++ rest) =
        ['('] :: words (.string 0) (data.flatMap escapeByte ++ [')'] ++ rest) := rfl
    rw [hopen, List.append_assoc, List.singleton_append, words_string]

/-- A reference shows itself. -/
theorem ref (id : Nat) : Shows Ends ((toString id).toList ++ [' ', '0', ' ', 'R']) [id] := by
  have hword := plainWord_toDigits id
  rw [Nat.toString_eq_ofList_toDigits, String.toList_ofList]
  refine ⟨List.forall_mem_append.2 ⟨ascii_of_plain hword.plain, by simp⟩, ?_⟩
  intro first second rest hrest
  refine ⟨['0'], ['R'], ?_⟩
  have hnumber : words (.word []) (Nat.toDigits 10 id ++ [' ', '0', ' ', 'R'] ++ rest) =
      Nat.toDigits 10 id :: words (.word []) ([' ', '0', ' ', 'R'] ++ rest) := by
    rw [List.append_assoc]
    exact words_word hword.nonempty (together_of_plain hword.plain) (ends_cons (by decide) _)
  have hmark : words (.word []) ([' ', '0', ' ', 'R'] ++ rest) =
      ['0'] :: ['R'] :: words (.word []) rest := by
    have hread : words (.word []) ([' ', '0', ' ', 'R'] ++ rest) =
        ['0'] :: words (.word ['R']) rest := rfl
    rw [hread, words_ends hrest]
    rfl
  rw [hnumber, hmark, referencesIn, if_neg hword.noStream, if_neg fun h => hword.noMark h.2,
    referencesIn, if_neg (by decide), if_neg (by simp), referencesIn, if_neg (by decide),
    if_pos (by decide), digits?_toDigits]
  rfl

/-- Texts one after the other, each of which can be read on its own. -/
theorem flatMap {β : Type} {text : β → List Char} {refs : β → List Nat} {items : List β}
    (h : ∀ item ∈ items, Shows Anything (text item) (refs item)) :
    Shows Anything (items.flatMap text) (items.flatMap refs) := by
  induction items with
  | nil => exact nil
  | cons item items ih =>
    obtain ⟨hitem, hitems⟩ := List.forall_mem_cons.1 h
    exact hitem.then_text (ih hitems)

theorem ends_spaced {β : Type} (text : β → List Char) (items : List β) {rest : List Char}
    (h : Ends rest) : Ends ((items.flatMap fun item => ' ' :: text item) ++ rest) := by
  cases items with
  | nil => exact h
  | cons item items => exact ends_cons (by decide) _

/-- Texts that end in a word, each behind a space. -/
theorem spaced {β : Type} {text : β → List Char} {refs : β → List Nat} {items : List β}
    (h : ∀ item ∈ items, Shows Ends (text item) (refs item)) :
    Shows Ends (items.flatMap fun item => ' ' :: text item) (items.flatMap refs) := by
  induction items with
  | nil => exact nil
  | cons item items ih =>
    obtain ⟨hitem, hitems⟩ := List.forall_mem_cons.1 h
    rw [List.flatMap_cons, List.flatMap_cons]
    exact (space.then_text hitem).append (ih hitems) fun _ hrest => ends_spaced text items hrest

theorem intercalate_cons {β : Type} (text : β → List Char) (item : β) (items : List β) :
    [' '].intercalate ((item :: items).map text) =
      text item ++ items.flatMap fun item => ' ' :: text item := by
  induction items generalizing item with
  | nil => simp
  | cons next items ih =>
    have hmore := ih next
    rw [List.map_cons] at hmore
    rw [List.map_cons, List.map_cons, List.intercalate_cons_cons, hmore, List.flatMap_cons,
      List.append_assoc]
    rfl

theorem intercalate {β : Type} {text : β → List Char} {refs : β → List Nat} {items : List β}
    (h : ∀ item ∈ items, Shows Ends (text item) (refs item)) :
    Shows Ends ([' '].intercalate (items.map text)) (items.flatMap refs) := by
  cases items with
  | nil => exact nil
  | cons item items =>
    obtain ⟨hitem, hitems⟩ := List.forall_mem_cons.1 h
    rw [intercalate_cons, List.flatMap_cons]
    exact hitem.append (spaced hitems) fun _ hrest => ends_spaced text items hrest

/-- Two brackets, as they open and close a dictionary. -/
theorem twice {c : Char} (h : isBracket c = true) : Shows Anything [c, c] [] :=
  (bracket h).then_text (bracket h)

end Shows

end Pdf
end Galley
