import Mathlib
import Galley.Proofs.Markup.Scanning
import Galley.Proofs.Outcome
import Galley.Proofs.Table

/-
The scanner accepts its grammar.

`Found` says what stands first in a text, and a scanner hands out just that (`found_of_next`,
`next_of_found`).  So the tokens of a scanner are in the grammar, and the pieces of a text come out
of it one by one.  Between two tokens a scanner may owe the end of a tag that closed itself.
-/

namespace Galley
namespace Markup
namespace Scanner

/-- What the scanner owes before it reads on. -/
def owed (s : Scanner) : List Token := s.pending.toList.map .closing

@[simp] theorem owed_of_none {s : Scanner} (h : s.pending = none) : s.owed = [] := by
  simp [owed, h]

@[simp] theorem owed_of_some {s : Scanner} {tag : String} (h : s.pending = some tag) :
    s.owed = [.closing tag] := by
  simp [owed, h]

theorem next_of_pending {s : Scanner} {tag : String} (hp : s.pending = some tag) :
    s.next = (.ok (some (.closing tag)), { s with pending := none }) := by
  unfold next
  rw [hp]

theorem next_of_nil {s : Scanner} (hp : s.pending = none) (hs : s.rest = []) :
    s.next = (.ok none, s) := by
  unfold next
  rw [hp, hs]

theorem next_of_endTag {s : Scanner} {cs : List Char} (hp : s.pending = none)
    (hs : s.rest = '<' :: '/' :: cs) : ∃ u : Scanner, u.rest = cs ∧ u.pending = none ∧
      s.next = (u.scanEndTag.1.map some, u.scanEndTag.2) := by
  obtain ⟨v, hv, hvrest, hvpending⟩ := accept_complete hs
  obtain ⟨u, hu, hurest, hupending⟩ := accept_complete hvrest
  refine ⟨u, hurest, hupending.trans (hvpending.trans hp), ?_⟩
  unfold next
  rw [hp, hs]
  dsimp only
  rw [hv]
  dsimp only
  rw [hu]

theorem next_of_openTag {s : Scanner} {cs : List Char} (hp : s.pending = none)
    (hs : s.rest = '<' :: cs) (hslash : cs.head? ≠ some '/') :
    ∃ u : Scanner, u.rest = cs ∧ u.pending = none ∧
      s.next = (u.scanOpenTag.1.map some, u.scanOpenTag.2) := by
  obtain ⟨u, hu, hurest, hupending⟩ := accept_complete hs
  refine ⟨u, hurest, hupending.trans hp, ?_⟩
  unfold next
  rw [hp, hs]
  dsimp only
  rw [hu]
  dsimp only
  rw [accept_eq_none_iff.2 (by rwa [hurest])]

theorem next_of_entity {s : Scanner} {cs : List Char} (hp : s.pending = none)
    (hs : s.rest = '&' :: cs) : ∃ u : Scanner, u.rest = cs ∧ u.pending = none ∧
      s.next = (u.scanEntity.1.map some, u.scanEntity.2) := by
  obtain ⟨u, hu, hurest, hupending⟩ := accept_complete hs
  refine ⟨u, hurest, hupending.trans hp, ?_⟩
  unfold next
  rw [hp, hs]
  dsimp only
  rw [accept_eq_none_iff.2 (by simp [hs]), hu]

theorem next_of_text {s : Scanner} {c : Char} {cs : List Char} (hp : s.pending = none)
    (hs : s.rest = c :: cs) (hc : isPlain c = true) :
    s.next = (.ok (some s.scanText.1), s.scanText.2) := by
  simp only [isPlain, Bool.and_eq_true, bne_iff_ne] at hc
  unfold next
  rw [hp, hs]
  dsimp only
  rw [accept_eq_none_iff.2 (by simp [hs, hc.1]), accept_eq_none_iff.2 (by simp [hs, hc.2])]

theorem eq_of_map_some {r : Except Error Token × Scanner} {token : Token} {t : Scanner}
    (h : (r.1.map some, r.2) = (.ok (some token), t)) : r = (.ok token, t) := by
  obtain ⟨hresult, ht⟩ := Prod.mk.inj h
  obtain ⟨token', htoken, heq⟩ := exists_of_map_ok hresult
  cases heq
  exact Prod.ext htoken ht

/-- `Found s t token`: the token stands first in what `s` has still to read, and `t` reads on
behind it. -/
inductive Found (s t : Scanner) : Token → Prop where
  | owed {tag : String} (hp : s.pending = some tag) (hrest : t.rest = s.rest)
      (ht : t.pending = none) : Found s t (.closing tag)
  | text {cs : List Char} {runs : List String} (hp : s.pending = none)
      (hs : s.rest = cs ++ t.rest) (hne : cs ≠ []) (hcs : ∀ c ∈ cs, isPlain c = true)
      (hnext : StopsAt isPlain t.rest) (hruns : RunsAs cs runs) (ht : t.pending = none) :
      Found s t (.text runs)
  | entity {name : List Char} {c : Char} (hp : s.pending = none)
      (hs : s.rest = '&' :: (name ++ ';' :: t.rest)) (hname : Reference name c)
      (ht : t.pending = none) : Found s t (.text [c.toString])
  | opening {name spaces written : List Char} {options : List (String × String)} {closed : Bool}
      (hp : s.pending = none) (hs : s.rest = '<' :: (name ++ (spaces ++ (written ++ t.rest))))
      (hname : Word name (spaces ++ written)) (hspaces : Spaces spaces)
      (hwritten : TagRest written options closed)
      (ht : t.pending = if closed then some (Text.lowercase name) else none) :
      Found s t (.opening (Text.lowercase name) (.ofList options))
  | closing {name spaces : List Char} (hp : s.pending = none)
      (hs : s.rest = '<' :: '/' :: (name ++ (spaces ++ '>' :: t.rest)))
      (hname : Word name (spaces ++ ['>'])) (hspaces : Spaces spaces) (ht : t.pending = none) :
      Found s t (.closing (Text.lowercase name))

theorem found_of_next {s t : Scanner} {token : Token} (h : s.next = (.ok (some token), t)) :
    Found s t token := by
  cases hp : s.pending with
  | some tag =>
    rw [next_of_pending hp] at h
    cases h
    exact .owed hp rfl rfl
  | none =>
    cases hs : s.rest with
    | nil =>
      rw [next_of_nil hp hs] at h
      cases h
    | cons c cs =>
      by_cases htag : c = '<'
      · subst htag
        by_cases hslash : cs.head? = some '/'
        · obtain ⟨cs, rfl⟩ : ∃ ds, cs = '/' :: ds := ⟨_, List.eq_cons_of_mem_head? hslash⟩
          obtain ⟨u, rfl, hup, hnext⟩ := next_of_endTag hp hs
          rw [hnext] at h
          obtain ⟨name, spaces, hu, hname, hspaces, rfl, htp⟩ :=
            scanEndTag_sound (eq_of_map_some h)
          exact .closing hp (by rw [hs, hu]) hname hspaces (htp.trans hup)
        · obtain ⟨u, rfl, hup, hnext⟩ := next_of_openTag hp hs hslash
          rw [hnext] at h
          obtain ⟨name, spaces, written, options, closed, hu, hname, hspaces, hwritten, rfl, htp⟩ :=
            scanOpenTag_sound (eq_of_map_some h)
          rw [hup] at htp
          exact .opening hp (by rw [hs, hu]) hname hspaces hwritten htp
      · by_cases hamp : c = '&'
        · subst hamp
          obtain ⟨u, rfl, hup, hnext⟩ := next_of_entity hp hs
          rw [hnext] at h
          obtain ⟨name, d, hu, hname, rfl, htp⟩ := scanEntity_sound (eq_of_map_some h)
          exact .entity hp (by rw [hs, hu]) hname (htp.trans hup)
        · have hplain : isPlain c = true := by simp [isPlain, htag, hamp]
          rw [next_of_text hp hs hplain] at h
          obtain ⟨htoken, ht'⟩ := Prod.mk.inj h
          obtain ⟨read, runs, hread, hne, hall, hnext, hruns, rfl, htp⟩ :=
            scanText_sound (Prod.ext (Option.some.inj (Except.ok.inj htoken)) ht')
              (by rw [hs, stopsAt_cons]; simp [hplain]) (by simp [hs])
          exact .text hp hread hne hall hnext hruns (htp.trans hp)

/-- Only where the scanner stands afterwards does not follow from the grammar. -/
theorem next_of_found {s t : Scanner} {token : Token} (h : Found s t token) :
    ∃ u, s.next = (.ok (some token), u) ∧ u.rest = t.rest ∧ u.pending = t.pending := by
  cases h with
  | owed hp hrest ht => exact ⟨_, next_of_pending hp, hrest.symm, ht.symm⟩
  | text hp hs hne hcs hnext hruns ht =>
    obtain ⟨u, hu, hurest, hup⟩ := scanText_complete hs hcs hnext hruns
    obtain ⟨c, cs, rfl⟩ := List.exists_cons_of_ne_nil hne
    have htext := next_of_text hp hs (hcs c List.mem_cons_self)
    rw [hu] at htext
    exact ⟨u, htext, hurest, by rw [hup, hp, ht]⟩
  | entity hp hs hname ht =>
    obtain ⟨v, hv, hvp, hnext⟩ := next_of_entity hp hs
    obtain ⟨u, hu, hurest, hup⟩ := scanEntity_complete hv hname
    rw [hu] at hnext
    exact ⟨u, hnext, hurest, by rw [hup, hvp, ht]⟩
  | @opening name spaces written options closed hp hs hname hspaces hwritten ht =>
    have hslash : (name ++ (spaces ++ (written ++ t.rest))).head? ≠ some '/' := by
      rw [List.head?_append_of_ne_nil _ hname.nonempty]
      intro h
      exact absurd (hname.chars '/' (List.mem_of_head? h)) (by decide)
    obtain ⟨v, hv, hvp, hnext⟩ := next_of_openTag hp hs hslash
    obtain ⟨u, hu, hurest, hup⟩ := scanOpenTag_complete hv hname hspaces hwritten
    rw [hu] at hnext
    exact ⟨u, hnext, hurest, by rw [hup, hvp, ht]⟩
  | closing hp hs hname hspaces ht =>
    obtain ⟨v, hv, hvp, hnext⟩ := next_of_endTag hp hs
    obtain ⟨u, hu, hurest, hup⟩ := scanEndTag_complete hv hname hspaces
    rw [hu] at hnext
    exact ⟨u, hnext, hurest, by rw [hup, hvp, ht]⟩

theorem document_of_found {s t : Scanner} {token : Token} {tokens : List Token}
    (h : Found s t token) (ht : Document t.rest tokens) :
    ∃ more, token :: (t.owed ++ tokens) = s.owed ++ more ∧ Document s.rest more := by
  cases h with
  | owed hp hrest htp =>
    rw [owed_of_some hp, owed_of_none htp, ← hrest]
    exact ⟨tokens, rfl, ht⟩
  | text hp hs hne hcs hnext hruns htp =>
    rw [owed_of_none hp, owed_of_none htp, hs]
    exact ⟨_, rfl, .text hne hcs hnext hruns ht⟩
  | entity hp hs hname htp =>
    rw [owed_of_none hp, owed_of_none htp, hs]
    exact ⟨_, rfl, .entity hname ht⟩
  | @opening name _ _ _ closed hp hs hname hspaces hwritten htp =>
    have howed : t.owed = if closed then [.closing (Text.lowercase name)] else [] := by
      cases closed with
      | false => exact owed_of_none htp
      | true => exact owed_of_some htp
    rw [owed_of_none hp, howed, hs]
    exact ⟨_, rfl, .opening hname hspaces hwritten ht⟩
  | closing hp hs hname hspaces htp =>
    rw [owed_of_none hp, owed_of_none htp, hs]
    exact ⟨_, rfl, .closing hname hspaces ht⟩

theorem tokens_of_nil {s : Scanner} (hp : s.pending = none) (hs : s.rest = []) :
    s.tokens.1 = [] := by
  rw [tokens]
  split
  · rfl
  · next h =>
    rw [next_of_nil hp hs] at h
    cases h
  · next h =>
    rw [next_of_nil hp hs] at h
    cases h

theorem tokens_of_next {s t : Scanner} {token : Token} (h : s.next = (.ok (some token), t)) :
    s.tokens.1 = .ok token :: t.tokens.1 := by
  rw [tokens]
  split
  · next h' =>
    rw [h] at h'
    cases h'
  · next h' =>
    rw [h] at h'
    cases h'
  · next h' =>
    rw [h] at h'
    cases h'
    rfl

/-- Where there is text, there is a token or an error. -/
theorem nil_of_next {s t : Scanner} (h : s.next = (.ok none, t)) :
    s.pending = none ∧ s.rest = [] := by
  have hnot (r : Except Error Token × Scanner) :
      (r.1.map some, r.2) ≠ (.ok none, t) := fun hr => map_some_ne r.1 (congrArg Prod.fst hr)
  unfold next at h
  split at h
  · cases h
  · next hp =>
    split at h
    · next hs => exact ⟨hp, hs⟩
    · split at h
      · exact absurd h (hnot _)
      · split at h
        · exact absurd h (hnot _)
        · cases h

theorem document_of_tokens {s : Scanner} {tokens : List Token}
    (h : s.tokens.1 = tokens.map .ok) : ∃ more, tokens = s.owed ++ more ∧ Document s.rest more := by
  fun_induction Scanner.tokens s generalizing tokens with
  | case1 s t hnext =>
    obtain ⟨hp, hs⟩ := nil_of_next hnext
    obtain rfl : tokens = [] := by simpa using h.symm
    refine ⟨[], by simp [hp], ?_⟩
    rw [hs]
    exact .nil
  | case2 s e t hnext =>
    cases tokens with
    | nil => cases h
    | cons token tokens => cases (List.cons.inj h).1
  | case3 s token t hnext hlt more last hmore ih =>
    cases tokens with
    | nil => cases h
    | cons token' tokens =>
      obtain ⟨htoken, htokens⟩ := List.cons.inj h
      cases htoken
      obtain ⟨read, rfl, hdocument⟩ := ih (by rw [hmore]; exact htokens)
      exact document_of_found (found_of_next hnext) hdocument

theorem tokens_of_document {cs : List Char} {tokens : List Token} (h : Document cs tokens)
    {s : Scanner} (hp : s.pending = none) (hs : s.rest = cs) : s.tokens.1 = tokens.map .ok := by
  induction h generalizing s with
  | nil => exact tokens_of_nil hp hs
  | @text cs rest runs tokens hne hcs hnext hruns hrest ih =>
    obtain ⟨u, hu, hurest, hup⟩ :=
      next_of_found (.text (t := { rest }) hp hs hne hcs hnext hruns rfl)
    rw [tokens_of_next hu, ih hup hurest]
    rfl
  | @entity name rest c tokens hname hrest ih =>
    obtain ⟨u, hu, hurest, hup⟩ := next_of_found (.entity (t := { rest }) hp hs hname rfl)
    rw [tokens_of_next hu, ih hup hurest]
    rfl
  | @opening name spaces written rest options closed tokens hname hspaces hwritten hrest ih =>
    obtain ⟨u, hu, hurest, hup⟩ := next_of_found (.opening
      (t := { rest, pending := if closed then some (Text.lowercase name) else none })
      hp hs hname hspaces hwritten rfl)
    rw [tokens_of_next hu]
    cases closed with
    | false =>
      rw [ih hup hurest]
      rfl
    | true =>
      rw [tokens_of_next (next_of_pending hup), ih (s := { u with pending := none }) rfl hurest]
      rfl
  | @closing name spaces rest tokens hname hspaces hrest ih =>
    obtain ⟨u, hu, hurest, hup⟩ :=
      next_of_found (.closing (t := { rest }) hp hs hname hspaces rfl)
    rw [tokens_of_next hu, ih hup hurest]
    rfl

/-- The scanner and the grammar agree on what a text stands for. -/
theorem tokens_iff {text : String} {tokens : List Token} :
    (ofText text).tokens.1 = tokens.map .ok ↔ Document text.toList tokens := by
  constructor
  · intro h
    obtain ⟨more, rfl, hdocument⟩ := document_of_tokens h
    exact hdocument
  · intro h
    exact tokens_of_document h rfl rfl

/-- The scanner gives no error on just the texts of the grammar, and then it gives the tokens that
the text stands for, each tag with the last value of every option. -/
theorem scan_iff_document (text : String) :
    ((∀ result ∈ (ofText text).tokens.1, ∃ token, result = .ok token) ↔
      ∃ tokens, Document text.toList tokens) ∧
    (∀ tokens, (ofText text).tokens.1 = tokens.map .ok ↔ Document text.toList tokens) ∧
    ∀ (options : List (String × String)) (name : String), (Table.ofList options).find? name =
      (options.reverse.find? fun e => e.1 = name).map Prod.snd := by
  refine ⟨?_, fun tokens => tokens_iff, Table.find?_ofList⟩
  constructor
  · intro h
    have hrange : (ofText text).tokens.1 ∈ Set.range (List.map Except.ok) := by
      rw [Set.range_list_map]
      intro result hresult
      obtain ⟨token, rfl⟩ := h result hresult
      exact ⟨token, rfl⟩
    obtain ⟨tokens, htokens⟩ := hrange
    exact ⟨tokens, tokens_iff.1 htokens.symm⟩
  · rintro ⟨tokens, h⟩ result hresult
    rw [tokens_iff.2 h] at hresult
    obtain ⟨token, -, rfl⟩ := List.mem_map.1 hresult
    exact ⟨token, rfl⟩

end Scanner
end Markup
end Galley
