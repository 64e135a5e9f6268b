import Mathlib
import Galley.Proofs.Markup.Appending
import Galley.Proofs.Markup.Printing

/-
Text as the runs of its tokens.

A text is cut into pieces of three kinds: literal text, entities and tags (`Cut`).  There is at
most one such cut (`Cut.unique`), since the scanner finds one token at a time and reads on at one
place.  Of literal text each longest piece of white space counts as one space (`collapse`), and its
runs are told apart by the characters that they may hold (`RunOf`), not by the scanner's classes.
Both are read off `RunsAs`, the rule of the grammar for text.
-/

namespace Galley
namespace Markup

/-! ## Runs -/

/-- What a run of each class looks like. -/
inductive RunOf : CharClass → String → Prop where
  | hyphens {cs : List Char} (hne : cs ≠ []) (hcs : ∀ c ∈ cs, c = '-') :
      RunOf .hyphen (String.ofList cs)
  | dashes {cs : List Char} (hne : cs ≠ []) (hcs : ∀ c ∈ cs, c = '\u2014' ∨ c = '\u2013') :
      RunOf .dash (String.ofList cs)
  | space : RunOf .space " "
  | word {cs : List Char} (hne : cs ≠ [])
      (hcs : ∀ c ∈ cs, c ≠ '-' ∧ c ≠ '\u2014' ∧ c ≠ '\u2013' ∧ c ∉ whiteSpace) :
      RunOf .word (String.ofList cs)

/-- Runs of one class each, no class twice in a row. -/
structure Segmented (runs : List String) : Prop where
  nonempty : runs ≠ []
  classes : ∃ kinds, List.Forall₂ RunOf kinds runs ∧ kinds.IsChain (· ≠ ·)

theorem classOf_eq_space_iff {c : Char} : classOf c = .space ↔ c ∈ whiteSpace := by
  constructor
  · intro h
    unfold classOf at h
    split at h
    · cases h
    · split at h
      · cases h
      · split at h
        · next hc => exact isSpace_iff_mem.1 hc
        · cases h
  · intro h
    have hspaces : Spaces [c] := by simpa [Spaces] using isSpace_iff_mem.2 h
    exact classOf_of_spaces hspaces c List.mem_cons_self

theorem runOf_of_class {k : CharClass} {piece : List Char} (hne : piece ≠ [])
    (hk : ∀ c ∈ piece, classOf c = k) :
    RunOf k (if k = .space then " " else String.ofList piece) := by
  cases k with
  | space => exact .space
  | hyphen =>
    refine .hyphens hne fun c hc => ?_
    have h := hk c hc
    simp only [classOf] at h
    grind
  | dash =>
    refine .dashes hne fun c hc => ?_
    have h := hk c hc
    simp only [classOf, isDash] at h
    grind
  | word =>
    refine .word hne fun c hc => ?_
    have h := hk c hc
    have hspace : c ∉ whiteSpace := by
      rw [← classOf_eq_space_iff, h]
      simp
    refine ⟨?_, ?_, ?_, hspace⟩
    all_goals
      rintro rfl
      revert h
      decide

theorem RunsAs.classes {cs : List Char} {runs : List String} (h : RunsAs cs runs) :
    ∃ kinds, List.Forall₂ RunOf kinds runs ∧ kinds.IsChain (· ≠ ·) ∧
      kinds.head? = cs.head?.map classOf := by
  induction h with
  | nil => exact ⟨[], .nil, .nil, rfl⟩
  | @run piece rest runs k hne hk hnext hrest ih =>
    obtain ⟨kinds, hkinds, hchain, hhead⟩ := ih
    refine ⟨k :: kinds, .cons (runOf_of_class hne hk) hkinds, ?_, ?_⟩
    · refine List.isChain_cons.2 ⟨fun j hj => ?_, hchain⟩
      rw [hhead, Option.mem_def, Option.map_eq_some_iff] at hj
      obtain ⟨c, hc, rfl⟩ := hj
      exact (hnext c hc).symm
    · obtain ⟨c, ds, rfl⟩ := List.exists_cons_of_ne_nil hne
      simp [hk c List.mem_cons_self]

theorem RunsAs.segmented {cs : List Char} {runs : List String} (h : RunsAs cs runs)
    (hne : cs ≠ []) : Segmented runs := by
  obtain ⟨kinds, hkinds, hchain, -⟩ := h.classes
  refine ⟨?_, kinds, hkinds, hchain⟩
  cases h with
  | nil => exact absurd rfl hne
  | run => exact List.cons_ne_nil _ _

/-! ## White space -/

/-- Each longest piece of white space becomes one space, written where it ends. -/
def collapse : List Char → List Char
  | [] => []
  | c :: cs =>
    if c ∈ whiteSpace then
      if cs.head?.any (· ∈ whiteSpace) then collapse cs else ' ' :: collapse cs
    else c :: collapse cs

theorem collapse_white {ws rest : List Char} (hne : ws ≠ []) (hws : ∀ c ∈ ws, c ∈ whiteSpace)
    (hnext : ∀ c ∈ rest.head?, c ∉ whiteSpace) : collapse (ws ++ rest) = ' ' :: collapse rest := by
  induction ws with
  | nil => exact absurd rfl hne
  | cons c ws ih =>
    have hc : c ∈ whiteSpace := hws c List.mem_cons_self
    rw [List.cons_append, collapse, if_pos hc]
    cases ws with
    | nil =>
      have hstop : ¬ (rest.head?.any (· ∈ whiteSpace)) = true := by
        rw [Option.any_eq_true]
        rintro ⟨d, hd, hwhite⟩
        exact hnext d hd (of_decide_eq_true hwhite)
      rw [List.nil_append, if_neg hstop]
    | cons d ws =>
      have hd : d ∈ whiteSpace := hws d (by simp)
      rw [List.cons_append, if_pos (by simpa using hd), ← List.cons_append]
      exact ih (List.cons_ne_nil d ws) fun x hx => hws x (List.mem_cons_of_mem c hx)

theorem collapse_append_of_not_white {cs rest : List Char} (hcs : ∀ c ∈ cs, c ∉ whiteSpace) :
    collapse (cs ++ rest) = cs ++ collapse rest := by
  induction cs with
  | nil => rfl
  | cons c cs ih =>
    rw [List.cons_append, collapse, if_neg (hcs c List.mem_cons_self),
      ih fun d hd => hcs d (List.mem_cons_of_mem c hd), List.cons_append]

/-- What the runs of a text show together. -/
theorem RunsAs.characters_eq_collapse {cs : List Char} {runs : List String} (h : RunsAs cs runs) :
    Markup.characters runs = collapse cs := by
  induction h with
  | nil => rfl
  | @run piece rest runs k hne hk hnext hrest ih =>
    rw [Markup.characters, List.flatMap_cons, ← Markup.characters, ih]
    by_cases hspace : k = .space
    · subst hspace
      rw [if_pos rfl, collapse_white hne (fun c hc => classOf_eq_space_iff.1 (hk c hc))
        fun c hc => mt classOf_eq_space_iff.2 (hnext c hc)]
      rfl
    · have hblack : ∀ c ∈ piece, c ∉ whiteSpace := by
        intro c hc
        rw [← classOf_eq_space_iff, hk c hc]
        exact hspace
      rw [if_neg hspace, collapse_append_of_not_white hblack, String.toList_ofList]

/-! ## Pieces of a text -/

/-- `Tag inner tokens`: behind its first sign and up to its last one, a tag is written as
`inner`. -/
inductive Tag : List Char → List Token → Prop where
  | opening {name spaces written : List Char} {options : List (String × String)} {closed : Bool}
      (hname : Word name (spaces ++ written)) (hspaces : Spaces spaces)
      (hwritten : TagRest written options closed) :
      Tag (name ++ (spaces ++ written)) (tagTokens (Text.lowercase name) options closed)
  | closing {name spaces : List Char} (hname : Word name (spaces ++ ['>']))
      (hspaces : Spaces spaces) :
      Tag ('/' :: (name ++ (spaces ++ ['>']))) [.closing (Text.lowercase name)]

inductive Piece where
  | literal (cs : List Char)
  /-- A name between an ampersand and a semicolon, and the character that it means. -/
  | entity (name : List Char) (c : Char)
  | tag (inner : List Char)

namespace Piece

def written : Piece → List Char
  | literal cs => cs
  | entity name _ => '&' :: (name ++ [';'])
  | tag inner => '<' :: inner

/-- What a reader sees of a piece. -/
def shown : Piece → List Char
  | literal cs => collapse cs
  | entity _ c => [c]
  | tag _ => []

/-- The piece is well formed, and literal text goes as far as it can before `behind`. -/
def Fits (behind : List Char) : Piece → Prop
  | literal cs => cs ≠ [] ∧ (∀ c ∈ cs, isPlain c = true) ∧ StopsAt isPlain behind
  | entity name c => Reference name c
  | tag inner => ∃ tokens, Tag inner tokens

/-- The tokens that a piece stands for. -/
inductive Gives : Piece → List Token → Prop where
  | literal {cs : List Char} {runs : List String} (hruns : Segmented runs)
      (hshown : characters runs = collapse cs) : Gives (literal cs) [.text runs]
  | entity {name : List Char} {c : Char} : Gives (entity name c) [.text [c.toString]]
  | tag {inner : List Char} {tokens : List Token} (h : Tag inner tokens) : Gives (tag inner) tokens

end Piece

/-- The text is written by the pieces, one behind the other. -/
inductive Cut : List Char → List Piece → Prop where
  | nil : Cut [] []
  | cons {piece : Piece} {rest : List Char} {pieces : List Piece} (hpiece : piece.Fits rest)
      (hrest : Cut rest pieces) : Cut (piece.written ++ rest) (piece :: pieces)

namespace Token

def runs : Token → List String
  | text runs => runs
  | opening .. => []
  | closing _ => []

end Token

theorem Tag.runs_eq_nil {inner : List Char} {tokens : List Token} (h : Tag inner tokens) :
    tokens.flatMap Token.runs = [] := by
  cases h with
  | @opening _ _ _ _ closed => cases closed <;> rfl
  | closing => rfl

theorem Piece.Gives.characters_eq {piece : Piece} {tokens : List Token}
    (h : piece.Gives tokens) : characters (tokens.flatMap Token.runs) = piece.shown := by
  cases h with
  | literal hruns hshown => simpa [Token.runs, Piece.shown] using hshown
  | entity => simp [Token.runs, characters, Piece.shown, Char.toString]
  | tag h =>
    rw [h.runs_eq_nil]
    rfl

/-- Pieces that follow each other show what they show one by one. -/
theorem characters_of_gives {pieces : List Piece} {parts : List (List Token)}
    (h : List.Forall₂ Piece.Gives pieces parts) :
    characters (parts.flatten.flatMap Token.runs) = pieces.flatMap Piece.shown := by
  induction h with
  | nil => rfl
  | cons hpiece _ ih =>
    rw [List.flatten_cons, List.flatMap_append, List.flatMap_cons, ← ih, ← hpiece.characters_eq]
    simp [characters]

theorem Document.cut {cs : List Char} {tokens : List Token} (h : Document cs tokens) :
    ∃ pieces parts, Cut cs pieces ∧ tokens = parts.flatten ∧
      List.Forall₂ Piece.Gives pieces parts := by
  induction h with
  | nil => exact ⟨[], [], .nil, rfl, .nil⟩
  | @text cs rest runs tokens hne hcs hnext hruns hrest ih =>
    obtain ⟨pieces, parts, hcut, rfl, hgives⟩ := ih
    have hfits : (Piece.literal cs).Fits rest := ⟨hne, hcs, hnext⟩
    exact ⟨.literal cs :: pieces, [.text runs] :: parts, .cons hfits hcut, rfl,
      .cons (.literal (hruns.segmented hne) hruns.characters_eq_collapse) hgives⟩
  | @entity name rest c tokens hname hrest ih =>
    obtain ⟨pieces, parts, hcut, rfl, hgives⟩ := ih
    refine ⟨.entity name c :: pieces, [.text [c.toString]] :: parts, ?_, rfl, .cons .entity hgives⟩
    have h : Cut ((Piece.entity name c).written ++ rest) _ := .cons hname hcut
    simpa [Piece.written] using h
  | @opening name spaces written rest options closed tokens hname hspaces hwritten hrest ih =>
    obtain ⟨pieces, parts, hcut, rfl, hgives⟩ := ih
    have htag : Tag (name ++ (spaces ++ written)) _ := .opening hname hspaces hwritten
    refine ⟨.tag (name ++ (spaces ++ written)) :: pieces, _ :: parts, ?_, rfl,
      .cons (.tag htag) hgives⟩
    have h : Cut ((Piece.tag (name ++ (spaces ++ written))).written ++ rest) _ :=
      .cons ⟨_, htag⟩ hcut
    simpa [Piece.written] using h
  | @closing name spaces rest tokens hname hspaces hrest ih =>
    obtain ⟨pieces, parts, hcut, rfl, hgives⟩ := ih
    have htag : Tag ('/' :: (name ++ (spaces ++ ['>']))) _ := .closing hname hspaces
    refine ⟨.tag ('/' :: (name ++ (spaces ++ ['>']))) :: pieces, _ :: parts, ?_, rfl,
      .cons (.tag htag) hgives⟩
    have h : Cut ((Piece.tag ('/' :: (name ++ (spaces ++ ['>'])))).written ++ rest) _ :=
      .cons ⟨_, htag⟩ hcut
    simpa [Piece.written] using h

/-! ## There is one cut -/

/-- A scanner finds the piece, and reads on behind it. -/
theorem Piece.Fits.found {piece : Piece} {behind : List Char} (h : piece.Fits behind) :
    ∃ token pending, Scanner.Found { rest := piece.written ++ behind }
      { rest := behind, pending := pending } token := by
  cases piece with
  | literal cs =>
    obtain ⟨hne, hcs, hnext⟩ := h
    obtain ⟨runs, hruns⟩ := exists_runsAs cs
    exact ⟨.text runs, none, .text rfl rfl hne hcs hnext hruns rfl⟩
  | entity name c =>
    exact ⟨.text [c.toString], none, .entity rfl (by simp [written]) h rfl⟩
  | tag inner =>
    obtain ⟨tokens, htag⟩ := h
    cases htag with
    | @opening name spaces rest options closed hname hspaces hwritten =>
      exact ⟨_, _, .opening rfl (by simp [written]) hname hspaces hwritten rfl⟩
    | @closing name spaces hname hspaces =>
      exact ⟨_, none, .closing rfl (by simp [written]) hname hspaces rfl⟩

theorem Reference.unique {name : List Char} {c d : Char} (hc : Reference name c)
    (hd : Reference name d) : c = d :=
  Option.some.inj ((entity?_eq_some_iff.2 hc).symm.trans (entity?_eq_some_iff.2 hd))

/-- The first character of a piece tells its kind. -/
theorem Piece.Fits.eq_of_written {p q : Piece} {behind behind' : List Char} (hp : p.Fits behind)
    (hq : q.Fits behind') (h : p.written = q.written) : p = q := by
  have hplain {cs : List Char} {c : Char} {ds : List Char} (hcs : ∀ c ∈ cs, isPlain c = true)
      (heq : cs = c :: ds) : isPlain c = true := hcs c (by simp [heq])
  cases p with
  | literal cs =>
    cases q with
    | literal ds => exact congrArg literal h
    | entity name d => exact absurd (hplain hp.2.1 h) (by decide)
    | tag inner => exact absurd (hplain hp.2.1 h) (by decide)
  | entity name c =>
    cases q with
    | literal ds => exact absurd (hplain hq.2.1 h.symm) (by decide)
    | entity name' d =>
      obtain rfl : name = name' := List.append_cancel_right (List.cons.inj h).2
      rw [Reference.unique hp hq]
    | tag inner => exact absurd (List.cons.inj h).1 (by decide)
  | tag inner =>
    cases q with
    | literal ds => exact absurd (hplain hq.2.1 h.symm) (by decide)
    | entity name d => exact absurd (List.cons.inj h).1 (by decide)
    | tag inner' => rw [(List.cons.inj h).2]

theorem Piece.Fits.unique {p q : Piece} {behind behind' : List Char} (hp : p.Fits behind)
    (hq : q.Fits behind') (h : p.written ++ behind = q.written ++ behind') :
    p = q ∧ behind = behind' := by
  obtain ⟨token, pending, hfound⟩ := hp.found
  obtain ⟨token', pending', hfound'⟩ := hq.found
  obtain ⟨u, hu, hrest, -⟩ := Scanner.next_of_found hfound
  obtain ⟨u', hu', hrest', -⟩ := Scanner.next_of_found hfound'
  rw [h, hu'] at hu
  have hsame : u' = u := (Prod.mk.inj hu).2
  obtain rfl : behind = behind' := hrest.symm.trans ((congrArg Scanner.rest hsame).symm.trans hrest')
  exact ⟨hp.eq_of_written hq (List.append_cancel_right h), rfl⟩

theorem Piece.Fits.written_ne_nil {piece : Piece} {behind : List Char} (h : piece.Fits behind) :
    piece.written ≠ [] := by
  cases piece with
  | literal cs => exact h.1
  | entity name c => exact List.cons_ne_nil _ _
  | tag inner => exact List.cons_ne_nil _ _

theorem Cut.unique {cs : List Char} {pieces others : List Piece} (h : Cut cs pieces)
    (hothers : Cut cs others) : others = pieces := by
  induction h generalizing others with
  | nil =>
    generalize hcs : ([] : List Char) = cs at hothers
    cases hothers with
    | nil => rfl
    | cons hpiece _ => exact absurd (List.append_eq_nil_iff.1 hcs.symm).1 hpiece.written_ne_nil
  | @cons piece rest pieces hpiece hrest ih =>
    generalize hcs : piece.written ++ rest = cs at hothers
    cases hothers with
    | nil => exact absurd (List.append_eq_nil_iff.1 hcs).1 hpiece.written_ne_nil
    | cons hother hmore =>
      obtain ⟨rfl, rfl⟩ := hpiece.unique hother hcs
      rw [ih hmore]

/-- A text that is scanned without error is cut into pieces in one way.  Literal text gives one
text token, whose runs are of one class each with neighbours in different classes; an entity gives
its character; and all runs together show the text without its tags, with entities read and each
longest piece of white space in literal text as one space. -/
theorem text_segmented (text : String) (tokens : List Token)
    (h : (Scanner.ofText text).tokens.1 = tokens.map .ok) :
    ∃ pieces, Cut text.toList pieces ∧ (∀ others, Cut text.toList others → others = pieces) ∧
      (∃ parts, tokens = parts.flatten ∧ List.Forall₂ Piece.Gives pieces parts) ∧
      (tokens.flatMap Token.runs).flatMap String.toList = pieces.flatMap Piece.shown := by
  obtain ⟨pieces, parts, hcut, rfl, hgives⟩ := (Scanner.tokens_iff.1 h).cut
  exact ⟨pieces, hcut, fun others hothers => hcut.unique hothers, ⟨parts, rfl, hgives⟩,
    characters_of_gives hgives⟩

/-- White space on both sides of a tag and of an entity that is a space itself, dashes of both kinds
in one run, and a no-break space inside a word. -/
theorem text_segmented_mixed :
    (Scanner.ofText "a --\u2014\u2013 \t&#32;\n<b x='>'> b\u00a0c</b>").tokens.1 =
      [.ok (.text ["a", " ", "--", "\u2014\u2013", " "]), .ok (.text [" "]), .ok (.text [" "]),
        .ok (.opening "b" (.ofList [("x", ">")])), .ok (.text [" ", "b\u00a0c"]),
        .ok (.closing "b")] ∧
    ∃ pieces, Cut "a --\u2014\u2013 \t&#32;\n<b x='>'> b\u00a0c</b>".toList pieces ∧
      pieces.flatMap Piece.shown = "a --\u2014\u2013    b\u00a0c".toList := by
  have h : (Scanner.ofText "a --\u2014\u2013 \t&#32;\n<b x='>'> b\u00a0c</b>").tokens.1 =
      [Token.text ["a", " ", "--", "\u2014\u2013", " "], .text [" "], .text [" "],
        .opening "b" (.ofList [("x", ">")]), .text [" ", "b\u00a0c"], .closing "b"].map .ok := by
    decide +kernel
  obtain ⟨pieces, hcut, -, -, hshown⟩ := text_segmented _ _ h
  exact ⟨h, pieces, hcut, by rw [← hshown]; decide⟩

end Markup
end Galley
