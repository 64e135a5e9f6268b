import Mathlib
import Galley.Proofs.Markup.Grammar

/-
The parts of the scanner and the grammar of their pieces.

A scanner that goes from `s` to `t` has used up what stands before `t.rest`.  For each part of the
scanner one lemma puts what it used up in the grammar (`.._sound`), and one finds a piece of the
grammar with the scanner (`.._complete`).
-/

namespace Galley
namespace Markup
namespace Scanner

/-! ## Reading on, and one character -/

theorem span_sound (s : Scanner) (p : Char → Bool) :
    s.rest = (s.span p).1 ++ (s.span p).2.rest ∧ (∀ c ∈ (s.span p).1, p c = true) ∧
      StopsAt p (s.span p).2.rest :=
  ⟨List.takeWhile_append_dropWhile.symm, fun _ hc => List.mem_takeWhile_imp hc,
    stopsAt_dropWhile p s.rest⟩

theorem span_complete {s : Scanner} {p : Char → Bool} {cs rest : List Char}
    (hrest : s.rest = cs ++ rest) (hcs : ∀ c ∈ cs, p c = true) (hstop : StopsAt p rest) :
    (s.span p).1 = cs ∧ (s.span p).2.rest = rest := by
  have htake : rest.takeWhile p = [] := by
    cases rest with
    | nil => rfl
    | cons c rest => exact List.takeWhile_cons_of_neg (by rw [stopsAt_cons.1 hstop]; simp)
  have hdrop : rest.dropWhile p = rest := by
    cases rest with
    | nil => rfl
    | cons c rest => exact List.dropWhile_cons_of_neg (by rw [stopsAt_cons.1 hstop]; simp)
  constructor
  · show s.rest.takeWhile p = cs
    rw [hrest, List.takeWhile_append_of_pos hcs, htake, List.append_nil]
  · show s.rest.dropWhile p = rest
    rw [hrest, List.dropWhile_append_of_pos hcs, hdrop]

theorem skipSpace_sound (s : Scanner) : ∃ spaces, s.rest = spaces ++ s.skipSpace.rest ∧
    Spaces spaces ∧ StopsAt Text.isSpace s.skipSpace.rest :=
  ⟨_, span_sound s Text.isSpace⟩

theorem skipSpace_complete {s : Scanner} {spaces rest : List Char} (hrest : s.rest = spaces ++ rest)
    (hspaces : Spaces spaces) (hstop : StopsAt Text.isSpace rest) : s.skipSpace.rest = rest :=
  (span_complete hrest hspaces hstop).2

theorem accept_sound {s t : Scanner} {c : Char} (h : s.accept c = some t) :
    s.rest = c :: t.rest ∧ t.pending = s.pending := by
  refine ⟨?_, (reads_accept h).2⟩
  unfold accept at h
  split at h
  · next hs =>
    split at h
    · next hc =>
      cases h
      rw [hs, hc]
    · cases h
  · cases h

theorem accept_complete {s : Scanner} {c : Char} {rest : List Char} (h : s.rest = c :: rest) :
    ∃ t, s.accept c = some t ∧ t.rest = rest ∧ t.pending = s.pending := by
  refine ⟨{ s with rest, position := s.position + c.utf8Size }, ?_, rfl, rfl⟩
  unfold accept
  rw [h]
  dsimp only
  rw [if_pos rfl]

theorem accept_eq_none_iff {s : Scanner} {c : Char} :
    s.accept c = none ↔ s.rest.head? ≠ some c := by
  unfold accept
  split
  · next d _ hs =>
    rw [hs]
    by_cases hc : d = c <;> simp [hc]
  · next hs => simp [hs]

/-! ## Entities -/

theorem behindSign_sound (s : Scanner) :
    ∃ sign, s.rest = sign ++ s.behindSign.rest ∧ s.behindSign.pending = s.pending := by
  unfold behindSign
  cases hsign : s.accept '#' with
  | none => exact ⟨[], rfl, rfl⟩
  | some a =>
    obtain ⟨hs, hsp⟩ := accept_sound hsign
    dsimp only
    cases hx : a.accept 'x' with
    | none => exact ⟨['#'], hs, hsp⟩
    | some b =>
      obtain ⟨ha, hap⟩ := accept_sound hx
      exact ⟨['#', 'x'], by rw [hs, ha]; rfl, hap.trans hsp⟩

theorem behindSign_complete {s : Scanner} {sign word : List Char} (h : Sign sign word)
    (hs : s.rest = sign ++ word) :
    s.behindSign.rest = word ∧ s.behindSign.pending = s.pending := by
  unfold behindSign
  cases h with
  | none h =>
    rw [accept_eq_none_iff.2 (by rwa [hs])]
    exact ⟨hs, rfl⟩
  | number h =>
    obtain ⟨a, ha, hrest, hpending⟩ := accept_complete hs
    rw [ha]
    dsimp only
    rw [accept_eq_none_iff.2 (by rwa [hrest])]
    exact ⟨hrest, hpending⟩
  | hexadecimal =>
    obtain ⟨a, ha, hrest, hpending⟩ := accept_complete hs
    obtain ⟨b, hb, hrest', hpending'⟩ := accept_complete hrest
    rw [ha]
    dsimp only
    rw [hb]
    exact ⟨hrest', hpending'.trans hpending⟩

theorem scanEntity_sound {s t : Scanner} {token : Token} (h : s.scanEntity = (.ok token, t)) :
    ∃ name c, s.rest = name ++ ';' :: t.rest ∧ Reference name c ∧ token = .text [c.toString] ∧
      t.pending = s.pending := by
  rw [scanEntity_eq] at h
  obtain ⟨sign, hsign, hpending⟩ := behindSign_sound s
  obtain ⟨hword, -, -⟩ := span_sound s.behindSign isWord
  split at h
  · cases h
  · split at h
    · cases h
    · next done hdone =>
      obtain ⟨hrest, hpending'⟩ := accept_sound hdone
      -- the name is what has been read up to the semicolon
      have hs : s.rest = (sign ++ (s.behindSign.span isWord).1) ++
          (s.behindSign.span isWord).2.rest := by
        rw [hsign, List.append_assoc, ← hword]
      have hname : s.rest.take (s.rest.length - (s.behindSign.span isWord).2.rest.length) =
          sign ++ (s.behindSign.span isWord).1 := by
        conv_lhs => rw [hs]
        rw [List.length_append, Nat.add_sub_cancel, List.take_left']
        rfl
      rw [hname] at h
      dsimp only at h
      split at h
      · next c hc =>
        cases h
        exact ⟨_, c, by rw [hs, hrest], entity?_eq_some_iff.1 hc, rfl, hpending'.trans hpending⟩
      · cases h

theorem scanEntity_complete {s : Scanner} {name rest : List Char} {c : Char}
    (hs : s.rest = name ++ ';' :: rest) (hname : Reference name c) :
    ∃ t, s.scanEntity = (.ok (.text [c.toString]), t) ∧ t.rest = rest ∧
      t.pending = s.pending := by
  obtain ⟨sign, word, rfl, hne, hword, hsign⟩ := hname.shape
  rw [List.append_assoc] at hs
  obtain ⟨hrest, hpending⟩ := behindSign_complete (hsign (';' :: rest)) hs
  obtain ⟨hread, hleft⟩ := span_complete hrest hword (stopsAt_cons.2 (by decide))
  obtain ⟨t, ht, htrest, htpending⟩ := accept_complete hleft
  refine ⟨t, ?_, htrest, htpending.trans hpending⟩
  have hentity : s.rest.take (s.rest.length - (s.behindSign.span isWord).2.rest.length) =
      sign ++ word := by
    rw [hleft, hs, ← List.append_assoc, List.length_append, Nat.add_sub_cancel, List.take_left']
    rfl
  rw [scanEntity_eq, hread, if_neg (by simpa using hne), ht]
  dsimp only
  rw [hentity, entity?_eq_some_iff.2 hname]

/-! ## Values -/

theorem openQuote_sound {s t : Scanner} {quote : Char} (h : s.openQuote = some (quote, t)) :
    s.rest = quote :: t.rest ∧ isQuote quote = true ∧ t.pending = s.pending := by
  unfold openQuote at h
  split at h
  · next inside hinside =>
    obtain ⟨hs, hp⟩ := accept_sound hinside
    cases h
    exact ⟨hs, by decide, hp⟩
  · obtain ⟨inside, hinside, heq⟩ := Option.map_eq_some_iff.1 h
    obtain ⟨hs, hp⟩ := accept_sound hinside
    cases heq
    exact ⟨hs, by decide, hp⟩

theorem openQuote_complete {s : Scanner} {quote : Char} {rest : List Char}
    (hs : s.rest = quote :: rest) (hquote : isQuote quote = true) :
    ∃ t, s.openQuote = some (quote, t) ∧ t.rest = rest ∧ t.pending = s.pending := by
  simp only [isQuote, Bool.or_eq_true, decide_eq_true_eq] at hquote
  obtain ⟨t, ht, htrest, htpending⟩ := accept_complete hs
  refine ⟨t, ?_, htrest, htpending⟩
  unfold openQuote
  rcases hquote with rfl | rfl
  · rw [ht]
  · rw [accept_eq_none_iff.2 (by simp [hs]), ht]
    rfl

theorem openQuote_eq_none_iff {s : Scanner} : s.openQuote = none ↔ StopsAt isQuote s.rest := by
  unfold openQuote
  cases hrest : s.rest with
  | nil =>
    rw [accept_eq_none_iff.2 (by simp [hrest]), accept_eq_none_iff.2 (by simp [hrest])]
    simp [StopsAt]
  | cons c cs =>
    rw [stopsAt_cons]
    constructor
    · intro h
      by_contra hc
      obtain ⟨t, ht, -⟩ := openQuote_complete hrest (by simpa using hc)
      unfold openQuote at ht
      rw [h] at ht
      cases ht
    · intro h
      simp only [isQuote, Bool.or_eq_false_iff, decide_eq_false_iff_not] at h
      rw [accept_eq_none_iff.2 (by simpa [hrest] using h.1),
        accept_eq_none_iff.2 (by simpa [hrest] using h.2)]
      rfl

/-- A value before white space is not read there, so an empty one stands at the end of the tag. -/
theorem scanValue_sound {s t : Scanner} {value : String} (h : s.scanValue = (.ok value, t))
    (hspace : StopsAt Text.isSpace s.rest) (hnext : t.rest ≠ []) :
    ∃ written cs, s.rest = written ++ t.rest ∧ value = String.ofList cs ∧
      Value written cs t.rest ∧ t.pending = s.pending := by
  unfold scanValue at h
  split at h
  · next quote inside hopen =>
    obtain ⟨hs, hquote, hpending⟩ := openQuote_sound hopen
    obtain ⟨hread, hvalue, -⟩ := span_sound inside (· != quote)
    dsimp only at h
    split at h
    · next done hdone =>
      obtain ⟨hrest, hpending'⟩ := accept_sound hdone
      cases h
      refine ⟨_, _, ?_, rfl, .quoted hquote ?_, hpending'.trans hpending⟩
      · rw [hs, hread, hrest, List.cons_append, List.append_assoc]
        rfl
      · intro hmem
        simpa using hvalue quote hmem
    · cases h
  · next hopen =>
    obtain ⟨hread, hvalue, hstop⟩ := span_sound s isBare
    cases h
    have hquote : StopsAt isQuote s.rest := openQuote_eq_none_iff.1 hopen
    refine ⟨_, _, hread, rfl, .bare hvalue ?_ ?_, rfl⟩
    · intro c hc
      refine hquote c ?_
      have hne : (s.span isBare).1 ≠ [] := by
        intro hnil
        rw [hnil] at hc
        cases hc
      rw [hread, List.head?_append_of_ne_nil _ hne]
      exact hc
    · cases hbehind : (s.span isBare).2.rest with
      | nil => exact absurd hbehind hnext
      | cons c cs =>
        have hc : isBare c = false := stopsAt_cons.1 (by rwa [hbehind] at hstop)
        refine ⟨c, congrArg List.head? hbehind, ?_⟩
        by_cases hend : c = '>'
        · exact Or.inl hend
        · have hblank : Text.isSpace c = true := by simpa [isBare, hend] using hc
          refine Or.inr ⟨?_, hblank⟩
          intro hnil
          rw [hread, hnil, List.nil_append, hbehind, stopsAt_cons, hblank] at hspace
          cases hspace

theorem scanValue_complete {s : Scanner} {written value rest : List Char}
    (hs : s.rest = written ++ rest) (h : Value written value rest) :
    ∃ t, s.scanValue = (.ok (String.ofList value), t) ∧ t.rest = rest ∧
      t.pending = s.pending := by
  cases h with
  | @quoted quote value rest hquote hvalue =>
    rw [List.cons_append, List.append_assoc] at hs
    obtain ⟨inside, hinside, hrest, hpending⟩ := openQuote_complete hs hquote
    obtain ⟨hread, hleft⟩ := span_complete (p := (· != quote)) hrest
      (by
        intro c hc
        have hne : c ≠ quote := fun h => hvalue (h ▸ hc)
        simpa using hne)
      (stopsAt_cons.2 (by simp))
    obtain ⟨t, ht, htrest, htpending⟩ := accept_complete hleft
    refine ⟨t, ?_, htrest, htpending.trans hpending⟩
    unfold scanValue
    rw [hinside]
    dsimp only
    rw [ht, hread]
  | bare hvalue hquote hlong =>
    obtain ⟨c, hc, hend⟩ := hlong
    have hstop : StopsAt isBare rest := by
      intro d hd
      obtain rfl : c = d := by
        rw [hc] at hd
        exact Option.some.inj hd
      rcases hend with rfl | ⟨-, hblank⟩
      · decide
      · simp [isBare, hblank]
    have hopen : s.openQuote = none := by
      refine openQuote_eq_none_iff.2 ?_
      rw [hs]
      cases written with
      | nil =>
        rcases hend with rfl | ⟨hne, -⟩
        · intro d hd
          rw [List.nil_append, hc] at hd
          cases hd
          decide
        · exact absurd rfl hne
      | cons d ds => exact stopsAt_cons.2 (stopsAt_cons.1 hquote)
    obtain ⟨hread, hleft⟩ := span_complete hs hvalue hstop
    refine ⟨(s.span isBare).2, ?_, hleft, rfl⟩
    unfold scanValue
    rw [hopen]
    dsimp only
    rw [← hread]
    rfl

/-! ## Tags -/

theorem scanOptions_sound {s t : Scanner} {found options : Attributes} {last behind : List Char}
    {closed : Bool} (h : s.scanOptions found = (.ok options, t)) (ht : t.rest = last ++ behind)
    (hlast : TagRest last [] closed) (hspace : StopsAt Text.isSpace s.rest) :
    ∃ written pairs, s.rest = written ++ behind ∧ TagRest written pairs closed ∧
      options = pairs.foldl (fun t e => t.insert e.1 e.2) found ∧ t.pending = s.pending := by
  fun_induction scanOptions s found with
  | case1 s found hend =>
    cases h
    exact ⟨last, [], ht, hlast, rfl, rfl⟩
  | case2 => cases h
  | case3 => cases h
  | case4 s found hend name afterSign hs value afterValue hv hlt ih =>
    obtain ⟨hname, hword, hmaximal⟩ := span_sound s isWord
    obtain ⟨before, hbefore, hbeforeSpaces, -⟩ := skipSpace_sound (s.span isWord).2
    obtain ⟨hsign, hsignPending⟩ := accept_sound hs
    obtain ⟨after, hafter, hafterSpaces, hvalueSpace⟩ := skipSpace_sound afterSign
    obtain ⟨more, hmore, hmoreSpaces, hmoreStop⟩ := skipSpace_sound afterValue
    obtain ⟨rest, pairs, hrest, htag, rfl, hpending⟩ := ih h hmoreStop
    have hbehind : afterValue.rest = (more ++ rest) ++ behind := by
      rw [hmore, hrest, List.append_assoc]
    have hne : more ++ rest ≠ [] := by simp [htag.ne_nil]
    obtain ⟨written, cs, hwritten, rfl, hvalue, hvaluePending⟩ :=
      scanValue_sound hv hvalueSpace (by simp [hbehind, htag.ne_nil])
    have hall : s.rest = (s.span isWord).1 ++
        (before ++ '=' :: (after ++ (written ++ (more ++ rest)))) ++ behind := by
      rw [hname, hbefore, hsign, hafter, hwritten, hbehind]
      simp only [List.append_assoc, List.cons_append]
    refine ⟨_, (name, String.ofList cs) :: pairs, hall, ?_, rfl, ?_⟩
    · refine .option ⟨by simpa using hend, hword, ?_⟩ hbeforeSpaces hafterSpaces
        (hvalue.congr ?_) hmoreSpaces htag
      · rw [← @stopsAt_append _ _ behind (by simp)]
        have hdrop : (s.span isWord).2.rest =
            (before ++ '=' :: (after ++ (written ++ (more ++ rest)))) ++ behind := by
          rw [hbefore, hsign, hafter, hwritten, hbehind]
          simp only [List.append_assoc, List.cons_append]
        rwa [← hdrop]
      · rw [hbehind, List.head?_append_of_ne_nil _ hne]
    · rw [hpending]
      exact hvaluePending.trans hsignPending

theorem scanOptions_option {s u v : Scanner} {found : Attributes} {value : String}
    (hne : (s.span isWord).1 ≠ []) (hu : (s.span isWord).2.skipSpace.accept '=' = some u)
    (hv : u.skipSpace.scanValue = (.ok value, v)) : s.scanOptions found =
      v.skipSpace.scanOptions (found.insert (Text.lowercase (s.span isWord).1) value) := by
  rw [scanOptions, if_neg (by simpa using hne)]
  split
  · next hnone =>
    rw [hu] at hnone
    cases hnone
  · next u' hu' =>
    obtain rfl : u = u' := by
      rw [hu] at hu'
      exact Option.some.inj hu'
    split
    · next hv' =>
      rw [hv] at hv'
      cases hv'
    · next hv' =>
      rw [hv] at hv'
      cases hv'
      rfl

theorem scanOptions_end {s : Scanner} (found : Attributes) {c : Char} {cs : List Char}
    (hs : s.rest = c :: cs) (hc : isWord c = false) : s.scanOptions found = (.ok found, s) := by
  have hread : (s.span isWord).1 = [] := by
    show s.rest.takeWhile isWord = []
    rw [hs]
    exact List.takeWhile_cons_of_neg (by simp [hc])
  rw [scanOptions, if_pos (by rw [hread]; rfl)]

theorem scanOptions_complete {s : Scanner} {written behind : List Char}
    {pairs : List (String × String)} {closed : Bool} (h : TagRest written pairs closed)
    (hs : s.rest = written ++ behind) (found : Attributes) :
    ∃ t last, s.scanOptions found = (.ok (pairs.foldl (fun t e => t.insert e.1 e.2) found), t) ∧
      t.rest = last ++ behind ∧ TagRest last [] closed ∧ t.pending = s.pending := by
  induction h generalizing s found with
  | stop => exact ⟨s, _, scanOptions_end found hs (by decide), hs, .stop, rfl⟩
  | close => exact ⟨s, _, scanOptions_end found hs (by decide), hs, .close, rfl⟩
  | @option name before after written value more rest options closed hname hbefore hafter hvalue
      hmore hrest ih =>
    simp only [List.append_assoc, List.cons_append] at hs
    have hbehind : StopsAt isWord
        (before ++ '=' :: (after ++ (written ++ (more ++ (rest ++ behind))))) := by
      have h := (@stopsAt_append _ _ behind (by simp)).2 hname.maximal
      simpa only [List.append_assoc, List.cons_append] using h
    obtain ⟨hread, hleft⟩ := span_complete hs hname.chars hbehind
    have hsign := skipSpace_complete hleft hbefore (stopsAt_cons.2 (by decide))
    obtain ⟨u, hu, hurest, hupending⟩ := accept_complete hsign
    have hvalue' : Value written value (more ++ (rest ++ behind)) := by
      refine hvalue.congr ?_
      rw [← List.append_assoc, List.head?_append_of_ne_nil _ (by simp [hrest.ne_nil])]
    have huvalue := skipSpace_complete hurest hafter hvalue'.not_isSpace
    obtain ⟨v, hv, hvrest, hvpending⟩ := scanValue_complete huvalue hvalue'
    have hvmore : v.skipSpace.rest = rest ++ behind := by
      refine skipSpace_complete hvrest hmore ?_
      exact (stopsAt_append hrest.ne_nil).2 (not_isSpace_of_tagRest hrest)
    obtain ⟨t, last, ht, htrest, hlast, htpending⟩ :=
      ih hvmore (found.insert (Text.lowercase name) (String.ofList value))
    refine ⟨t, last, ?_, htrest, hlast, ?_⟩
    · rw [scanOptions_option (by rw [hread]; exact hname.nonempty) hu hv, hread, ht]
      rfl
    · rw [htpending]
      exact hvpending.trans hupending

theorem scanOpenTag_sound {s t : Scanner} {token : Token} (h : s.scanOpenTag = (.ok token, t)) :
    ∃ name spaces written options closed, s.rest = name ++ (spaces ++ (written ++ t.rest)) ∧
      Word name (spaces ++ written) ∧ Spaces spaces ∧ TagRest written options closed ∧
      token = .opening (Text.lowercase name) (.ofList options) ∧
      t.pending = if closed then some (Text.lowercase name) else s.pending := by
  obtain ⟨hname, hword, hmaximal⟩ := span_sound s isWord
  obtain ⟨spaces, hspaces, hblank, hstop⟩ := skipSpace_sound (s.span isWord).2
  unfold scanOpenTag at h
  dsimp only at h
  split at h
  · cases h
  · next hne =>
    split at h
    · cases h
    · next options u hu =>
      split at h
      · cases h
      · next v hv =>
        obtain ⟨hvrest, hvpending⟩ := accept_sound hv
        cases h
        have hend : u.rest = endsWith (u.accept '/').isSome ++ v.rest ∧ v.pending = u.pending := by
          cases hslash : u.accept '/' with
          | none =>
            rw [hslash] at hvrest hvpending
            exact ⟨hvrest, hvpending⟩
          | some w =>
            obtain ⟨hw, hwpending⟩ := accept_sound hslash
            rw [hslash] at hvrest hvpending
            refine ⟨?_, hvpending.trans hwpending⟩
            rw [hw]
            exact congrArg ('/' :: ·) hvrest
        obtain ⟨written, pairs, hwritten, htag, rfl, hupending⟩ :=
          scanOptions_sound hu hend.1 (tagRest_nil_iff.2 rfl) hstop
        refine ⟨_, spaces, written, pairs, _, ?_, ⟨by simpa using hne, hword, ?_⟩, hblank, htag,
          rfl, ?_⟩
        · rw [hname, hspaces, hwritten]
        · rw [hspaces, hwritten, ← List.append_assoc, stopsAt_append (by simp [htag.ne_nil])]
            at hmaximal
          exact hmaximal
        · dsimp only
          rw [hend.2, hupending]
          rfl

theorem scanOpenTag_complete {s : Scanner} {name spaces written behind : List Char}
    {options : List (String × String)} {closed : Bool}
    (hs : s.rest = name ++ (spaces ++ (written ++ behind))) (hname : Word name (spaces ++ written))
    (hspaces : Spaces spaces) (hwritten : TagRest written options closed) :
    ∃ t, s.scanOpenTag = (.ok (.opening (Text.lowercase name) (.ofList options)), t) ∧
      t.rest = behind ∧
      t.pending = if closed then some (Text.lowercase name) else s.pending := by
  have hmaximal : StopsAt isWord (spaces ++ (written ++ behind)) := by
    rw [← List.append_assoc]
    exact (stopsAt_append (by simp [hwritten.ne_nil])).2 hname.maximal
  obtain ⟨hread, hleft⟩ := span_complete hs hname.chars hmaximal
  have hrest := skipSpace_complete hleft hspaces
    ((stopsAt_append hwritten.ne_nil).2 (not_isSpace_of_tagRest hwritten))
  obtain ⟨u, last, hu, hurest, hlast, hupending⟩ := scanOptions_complete hwritten hrest .empty
  obtain rfl := tagRest_nil_iff.1 hlast
  have hend : ∃ v, ((u.accept '/').getD u).accept '>' = some v ∧ v.rest = behind ∧
      v.pending = s.pending ∧ (u.accept '/').isSome = closed := by
    cases closed with
    | false =>
      obtain ⟨v, hv, hvrest, hvpending⟩ := accept_complete hurest
      have hslash : u.accept '/' = none := accept_eq_none_iff.2 (by rw [hurest]; simp [endsWith])
      rw [hslash]
      exact ⟨v, hv, hvrest, hvpending.trans hupending, rfl⟩
    | true =>
      obtain ⟨w, hw, hwrest, hwpending⟩ := accept_complete hurest
      obtain ⟨v, hv, hvrest, hvpending⟩ := accept_complete hwrest
      rw [hw]
      exact ⟨v, hv, hvrest, hvpending.trans (hwpending.trans hupending), rfl⟩
  obtain ⟨v, hv, hvrest, hvpending, hclosed⟩ := hend
  unfold scanOpenTag
  dsimp only
  rw [hread, if_neg (by simpa using hname.nonempty), hu]
  dsimp only
  rw [hv, hclosed]
  exact ⟨_, rfl, hvrest, by rw [hvpending]⟩

theorem scanEndTag_sound {s t : Scanner} {token : Token} (h : s.scanEndTag = (.ok token, t)) :
    ∃ name spaces, s.rest = name ++ (spaces ++ '>' :: t.rest) ∧ Word name (spaces ++ ['>']) ∧
      Spaces spaces ∧ token = .closing (Text.lowercase name) ∧ t.pending = s.pending := by
  obtain ⟨hname, hword, hmaximal⟩ := span_sound s isWord
  obtain ⟨spaces, hspaces, hblank, -⟩ := skipSpace_sound (s.span isWord).2
  unfold scanEndTag at h
  dsimp only at h
  split at h
  · cases h
  · next hne =>
    split at h
    · cases h
    · next u hu =>
      obtain ⟨hrest, hpending⟩ := accept_sound hu
      cases h
      refine ⟨_, spaces, ?_, ⟨by simpa using hne, hword, ?_⟩, hblank, rfl, hpending⟩
      · rw [hname, hspaces, hrest]
      · rw [hspaces, hrest, List.append_cons, stopsAt_append (by simp)] at hmaximal
        exact hmaximal

theorem scanEndTag_complete {s : Scanner} {name spaces behind : List Char}
    (hs : s.rest = name ++ (spaces ++ '>' :: behind)) (hname : Word name (spaces ++ ['>']))
    (hspaces : Spaces spaces) :
    ∃ t, s.scanEndTag = (.ok (.closing (Text.lowercase name)), t) ∧ t.rest = behind ∧
      t.pending = s.pending := by
  have hmaximal : StopsAt isWord (spaces ++ '>' :: behind) := by
    rw [List.append_cons]
    exact (stopsAt_append (by simp)).2 hname.maximal
  obtain ⟨hread, hleft⟩ := span_complete hs hname.chars hmaximal
  have hrest := skipSpace_complete hleft hspaces (stopsAt_cons.2 (by decide))
  obtain ⟨t, ht, htrest, htpending⟩ := accept_complete hrest
  refine ⟨t, ?_, htrest, htpending⟩
  unfold scanEndTag
  dsimp only
  rw [hread, if_neg (by simpa using hname.nonempty), ht]

/-! ## Text -/

theorem scanText_sound {s t : Scanner} {token : Token} (h : s.scanText = (token, t))
    (hs : StopsAt (! isPlain ·) s.rest) (hne : s.rest ≠ []) :
    ∃ cs runs, s.rest = cs ++ t.rest ∧ cs ≠ [] ∧ (∀ c ∈ cs, isPlain c = true) ∧
      StopsAt isPlain t.rest ∧ RunsAs cs runs ∧ token = .text runs ∧ t.pending = s.pending := by
  obtain ⟨hread, hplain, hstop⟩ := span_sound s isPlain
  cases h
  refine ⟨_, _, hread, ?_, hplain, hstop, runsAs_iff.2 rfl, rfl, rfl⟩
  show s.rest.takeWhile isPlain ≠ []
  cases hrest : s.rest with
  | nil => exact absurd hrest hne
  | cons c cs =>
    rw [hrest, stopsAt_cons] at hs
    rw [List.takeWhile_cons_of_pos (by simpa using hs)]
    simp

theorem scanText_complete {s : Scanner} {cs rest : List Char} {runs : List String}
    (hs : s.rest = cs ++ rest) (hcs : ∀ c ∈ cs, isPlain c = true) (hnext : StopsAt isPlain rest)
    (hruns : RunsAs cs runs) :
    ∃ t, s.scanText = (.text runs, t) ∧ t.rest = rest ∧ t.pending = s.pending := by
  obtain ⟨hread, hleft⟩ := span_complete hs hcs hnext
  refine ⟨(s.span isPlain).2, ?_, hleft, rfl⟩
  rw [hruns.eq_runsOf, ← hread]
  rfl

end Scanner
end Markup
end Galley
