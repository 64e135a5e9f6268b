import Mathlib
import Galley.Proofs.Style.Dimensions

/-
Measures that are names for other measures.

`Follows` leads from a measure through a table of names, without a bound and without looking for
cycles.  Resolving a measure goes along it to where it has to stop (`resolveIn_iff`): at an amount,
or at a text that is no amount, a name that came before, a name for which there is no room, or one
that the table does not have (`Halts`).  What is resolved to what is read off that, since a path
that ends at an amount meets no name twice (`Follows.nodup`), and the first name that comes again
comes no later than any other.
-/

namespace Galley
namespace Style

variable {α : Type}

/-! ## Paths through a table -/

/-- `Follows aliases m names last`: looking these names up one after another leads to `last`. -/
inductive Follows (aliases : Table (Measure α)) : Measure α → List String → Measure α → Prop where
  | stay (m : Measure α) : Follows aliases m [] m
  | look {text : String} {target last : Measure α} {names : List String}
      (hname : ¬ Leads (Text.trim text).toList)
      (hfind : aliases.find? (Text.trim text) = some target)
      (hrest : Follows aliases target names last) :
      Follows aliases (.expr text) (Text.trim text :: names) last

namespace Follows

variable {aliases : Table (Measure α)} {m last : Measure α} {names : List String}

/-- Another table with the same entries for the names on the path leads the same way. -/
theorem congr {others : Table (Measure α)} (h : Follows aliases m names last)
    (hsame : ∀ name ∈ names, others.find? name = aliases.find? name) :
    Follows others m names last := by
  induction h with
  | stay m => exact .stay m
  | @look text _ _ names hname hfind hrest ih =>
    refine .look hname ?_ (ih fun name hmem => hsame name (List.mem_cons_of_mem _ hmem))
    rw [hsame _ List.mem_cons_self, hfind]

/-- Up to a name on the path there is a path to a text that is trimmed to that name. -/
theorem upTo {front behind : List String} {name : String}
    (h : Follows aliases m (front ++ name :: behind) last) :
    ∃ text, Follows aliases m front (.expr text) ∧ Text.trim text = name ∧
      ¬ Leads name.toList := by
  induction front generalizing m with
  | nil =>
    cases h with
    | look hname hfind hrest => exact ⟨_, .stay _, rfl, hname⟩
  | cons first front ih =>
    cases h with
    | look hname hfind hrest =>
      obtain ⟨text, hpath, htext, hnot⟩ := ih hrest
      exact ⟨text, .look hname hfind hpath, htext, hnot⟩

/-- The rest of the path behind a name. -/
theorem behind {front behind : List String} {name : String}
    (h : Follows aliases m (front ++ name :: behind) last) :
    ∃ target, aliases.find? name = some target ∧ Follows aliases target behind last := by
  induction front generalizing m with
  | nil =>
    cases h with
    | look hname hfind hrest => exact ⟨_, hfind, hrest⟩
  | cons first front ih =>
    cases h with
    | look hname hfind hrest => exact ih hrest

/-- Where names come again along a path and at its end, one comes again for the first time. -/
theorem first_again {text : String} (h : Follows aliases m names (.expr text))
    (hname : ¬ Leads (Text.trim text).toList) (hagain : ¬ (names ++ [Text.trim text]).Nodup) :
    ∃ front again, Follows aliases m front (.expr again) ∧ front.length ≤ names.length ∧
      ¬ Leads (Text.trim again).toList ∧ front.Nodup ∧ Text.trim again ∈ front := by
  induction names using List.reverseRecOn generalizing text with
  | nil => exact absurd (List.nodup_singleton _) hagain
  | append_singleton names name ih =>
    by_cases hnodup : (names ++ [name]).Nodup
    · refine ⟨names ++ [name], text, h, le_refl _, hname, hnodup, ?_⟩
      by_contra hnot
      have hlonger := List.Nodup.concat hnot hnodup
      rw [List.concat_eq_append] at hlonger
      exact hagain hlonger
    · obtain ⟨before, hpath, rfl, hnot⟩ := h.upTo
      obtain ⟨front, again, hfront, hlength, hrest⟩ := ih hpath hnot hnodup
      exact ⟨front, again, hfront, by rw [List.length_append]; omega, hrest⟩

/-- No name leads on. -/
def Stops (last : Measure α) : Prop := ∀ text, last = .expr text → Leads (Text.trim text).toList

/-- A table leads from a measure to one end. -/
theorem unique {names' : List String} {last' : Measure α} (h : Follows aliases m names last)
    (h' : Follows aliases m names' last') (hstop : Stops last) (hstop' : Stops last') :
    names = names' := by
  induction h generalizing names' with
  | stay m =>
    cases h' with
    | stay => rfl
    | look hname _ _ => exact absurd (hstop _ rfl) hname
  | look hname hfind hrest ih =>
    cases h' with
    | stay => exact absurd (hstop' _ rfl) hname
    | look hname' hfind' hrest' =>
      obtain rfl := Option.some.inj (hfind.symm.trans hfind')
      rw [ih hrest' hstop]

/-- A path that ends meets no name twice, since from there it would go round for ever. -/
theorem nodup (h : Follows aliases m names last) (hstop : Stops last) : names.Nodup := by
  induction h with
  | stay => exact List.nodup_nil
  | @look text target last names hname hfind hrest ih =>
    refine List.nodup_cons.2 ⟨fun hmem => ?_, ih hstop⟩
    obtain ⟨front, behind, rfl⟩ := List.append_of_mem hmem
    obtain ⟨target', hfind', hbehind⟩ := hrest.behind
    obtain rfl := Option.some.inj (hfind.symm.trans hfind')
    have hlength := congrArg List.length (hrest.unique hbehind hstop hstop)
    simp only [List.length_append, List.length_cons] at hlength
    omega

end Follows

/-! ## Where resolving stops -/

variable [Scalar α] {ctx : MeasureContext α}

/-- A number of points, or a text that spells an amount. -/
inductive Final (ctx : MeasureContext α) : Measure α → α → Prop where
  | points (size : α) : Final ctx (.points size) size
  | expr {text : String} {v : α} (h : Amount ctx (Text.trim text).toList v) :
      Final ctx (.expr text) v

/-- What comes out of a measure that is not followed, with `room` for further names behind the names
in `seen`. -/
inductive Halts (ctx : MeasureContext α) (room : Nat) (seen : List String) :
    Measure α → Except Error α → Prop where
  | final {m : Measure α} {v : α} (h : Final ctx m v) : Halts ctx room seen m (.ok v)
  | unsupported {text : String} {d : Dimension α}
      (hd : Dimension.ofChars? (Text.trim text).toList = some d) (hunit : d.resolve? ctx = none) :
      Halts ctx room seen (.expr text)
        (.error (.style (.unsupportedUnit (Text.trim text) d.unit)))
  | again {text : String} (hname : ¬ Leads (Text.trim text).toList)
      (hmem : Text.trim text ∈ seen) :
      Halts ctx room seen (.expr text) (.error (.style (.aliasCycle (Text.trim text) seen)))
  | deep {text : String} (hname : ¬ Leads (Text.trim text).toList)
      (hnew : Text.trim text ∉ seen) (hroom : room = 0) :
      Halts ctx room seen (.expr text)
        (.error (.style (.aliasTooDeep (Text.trim text) Measure.maxAliases)))
  | unknown {text : String} (hname : ¬ Leads (Text.trim text).toList)
      (hnew : Text.trim text ∉ seen) (hroom : room ≠ 0)
      (hnone : ctx.aliases.find? (Text.trim text) = none) :
      Halts ctx room seen (.expr text) (.error (.style (.unknownMeasure (Text.trim text))))

theorem not_isBlank_getLast_trim (text : String) :
    ∀ c ∈ (Text.trim text).toList.getLast?, Text.isBlank c = false := by
  rw [Text.trim, String.toList_ofList]
  exact not_isBlank_getLast_trimBlanks text.toList

theorem not_leads_iff {cs : List Char} :
    ¬ Leads cs ↔ (Dimension.ofChars? cs : Option (Dimension α)) = none := by
  rw [leads_iff (α := α), Bool.not_eq_true, Option.isSome_eq_false_iff, Option.isNone_iff_eq_none]

theorem final_expr_iff {text : String} {v : α} : Final ctx (.expr text) v ↔
    ∃ d, Dimension.ofChars? (Text.trim text).toList = some d ∧ d.resolve? ctx = some v := by
  rw [← amount_iff (not_isBlank_getLast_trim text)]
  constructor
  · rintro ⟨⟩
    assumption
  · exact .expr

theorem Final.stops {m : Measure α} {v : α} (h : Final ctx m v) : Follows.Stops m := by
  rintro text rfl
  obtain ⟨d, hd, -⟩ := final_expr_iff.1 h
  rw [leads_iff (α := α), hd]
  rfl

/-! ## Resolving -/

variable {room : Nat} {seen : List String} {text : String}

theorem resolveIn_points (size : α) :
    Measure.resolveIn ctx room seen (.points size) = .ok size := by
  cases room <;> rfl

theorem resolveIn_dimension {d : Dimension α}
    (hd : Dimension.ofChars? (Text.trim text).toList = some d) :
    Measure.resolveIn ctx room seen (.expr text) =
      match d.resolve? ctx with
      | some size => .ok size
      | none => .error (.style (.unsupportedUnit (Text.trim text) d.unit)) := by
  rw [Measure.resolveIn.eq_def]
  cases hsize : d.resolve? ctx with
  | none => simp only [hd, hsize]
  | some size => simp only [hd, hsize]

theorem resolveIn_again (hname : ¬ Leads (Text.trim text).toList) (hmem : Text.trim text ∈ seen) :
    Measure.resolveIn ctx room seen (.expr text) =
      .error (.style (.aliasCycle (Text.trim text) seen)) := by
  rw [Measure.resolveIn.eq_def]
  dsimp only
  rw [not_leads_iff.1 hname]
  dsimp only
  rw [if_pos hmem]

theorem resolveIn_deep (hname : ¬ Leads (Text.trim text).toList) (hnew : Text.trim text ∉ seen) :
    Measure.resolveIn ctx 0 seen (.expr text) =
      .error (.style (.aliasTooDeep (Text.trim text) Measure.maxAliases)) := by
  rw [Measure.resolveIn.eq_def]
  dsimp only
  rw [not_leads_iff.1 hname]
  dsimp only
  rw [if_neg hnew]

theorem resolveIn_unknown (hname : ¬ Leads (Text.trim text).toList)
    (hnew : Text.trim text ∉ seen) (hnone : ctx.aliases.find? (Text.trim text) = none) :
    Measure.resolveIn ctx (room + 1) seen (.expr text) =
      .error (.style (.unknownMeasure (Text.trim text))) := by
  rw [Measure.resolveIn.eq_def]
  dsimp only
  rw [not_leads_iff.1 hname]
  dsimp only
  rw [if_neg hnew, hnone]

theorem resolveIn_look {target : Measure α} (hname : ¬ Leads (Text.trim text).toList)
    (hnew : Text.trim text ∉ seen) (hfind : ctx.aliases.find? (Text.trim text) = some target) :
    Measure.resolveIn ctx (room + 1) seen (.expr text) =
      Measure.resolveIn ctx room (seen ++ [Text.trim text]) target := by
  rw [Measure.resolveIn.eq_def]
  dsimp only
  rw [not_leads_iff.1 hname]
  dsimp only
  rw [if_neg hnew, hfind]

theorem resolveIn_of_halts {m : Measure α} {r : Except Error α} (h : Halts ctx room seen m r) :
    Measure.resolveIn ctx room seen m = r := by
  cases h with
  | @final m v h =>
    cases h with
    | points => exact resolveIn_points v
    | expr h =>
      obtain ⟨d, hd, hv⟩ := final_expr_iff.1 (.expr h)
      rw [resolveIn_dimension hd, hv]
  | unsupported hd hunit => rw [resolveIn_dimension hd, hunit]
  | again hname hmem => exact resolveIn_again hname hmem
  | deep hname hnew hroom =>
    rw [hroom]
    exact resolveIn_deep hname hnew
  | unknown hname hnew hroom hnone =>
    obtain ⟨room, rfl⟩ := Nat.exists_eq_succ_of_ne_zero hroom
    exact resolveIn_unknown hname hnew hnone

/-- `Reaches ctx room seen m r`: behind the names in `seen`, a path of new names, for which there is
room, leads to where `r` comes out. -/
def Reaches (ctx : MeasureContext α) (room : Nat) (seen : List String) (m : Measure α)
    (r : Except Error α) : Prop :=
  ∃ names last, Follows ctx.aliases m names last ∧ names.length ≤ room ∧ names.Nodup ∧
    (∀ name ∈ names, name ∉ seen) ∧ Halts ctx (room - names.length) (seen ++ names) last r

theorem Reaches.of_halts {m : Measure α} {r : Except Error α} (h : Halts ctx room seen m r) :
    Reaches ctx room seen m r :=
  ⟨[], m, .stay m, Nat.zero_le room, List.nodup_nil, fun _ hmem => absurd hmem List.not_mem_nil,
    by simpa using h⟩

theorem Reaches.look {target : Measure α} {r : Except Error α}
    (hname : ¬ Leads (Text.trim text).toList) (hnew : Text.trim text ∉ seen)
    (hfind : ctx.aliases.find? (Text.trim text) = some target)
    (h : Reaches ctx room (seen ++ [Text.trim text]) target r) :
    Reaches ctx (room + 1) seen (.expr text) r := by
  obtain ⟨names, last, hpath, hlength, hnodup, hfresh, hhalts⟩ := h
  have hnot : Text.trim text ∉ names := fun hmem => hfresh _ hmem (by simp)
  refine ⟨Text.trim text :: names, last, .look hname hfind hpath, by simpa using hlength,
    List.nodup_cons.2 ⟨hnot, hnodup⟩, ?_, ?_⟩
  · intro name hmem
    rcases List.mem_cons.1 hmem with rfl | hmem
    · exact hnew
    · exact fun hseen => hfresh name hmem (List.mem_append_left _ hseen)
  · rw [List.length_cons, Nat.add_sub_add_right]
    rwa [List.append_assoc, List.singleton_append] at hhalts

/-- A measure is the end, or it is a new name that can be looked up. -/
theorem halts_or_look (ctx : MeasureContext α) (room : Nat) (seen : List String) (m : Measure α) :
    (∃ r, Halts ctx room seen m r) ∨
      ∃ text target, m = .expr text ∧ ¬ Leads (Text.trim text).toList ∧ Text.trim text ∉ seen ∧
        room ≠ 0 ∧ ctx.aliases.find? (Text.trim text) = some target := by
  cases m with
  | points size => exact Or.inl ⟨_, .final (.points size)⟩
  | expr text =>
    cases hd : (Dimension.ofChars? (Text.trim text).toList : Option (Dimension α)) with
    | some d =>
      cases hv : d.resolve? ctx with
      | some v => exact Or.inl ⟨_, .final (final_expr_iff.2 ⟨d, hd, hv⟩)⟩
      | none => exact Or.inl ⟨_, .unsupported hd hv⟩
    | none =>
      have hname := not_leads_iff.2 hd
      by_cases hmem : Text.trim text ∈ seen
      · exact Or.inl ⟨_, .again hname hmem⟩
      · by_cases hroom : room = 0
        · exact Or.inl ⟨_, .deep hname hmem hroom⟩
        · cases hfind : ctx.aliases.find? (Text.trim text) with
          | none => exact Or.inl ⟨_, .unknown hname hmem hroom hfind⟩
          | some target => exact Or.inr ⟨text, target, rfl, hname, hmem, hroom, hfind⟩

theorem reaches_resolveIn (ctx : MeasureContext α) (room : Nat) (seen : List String)
    (m : Measure α) : Reaches ctx room seen m (Measure.resolveIn ctx room seen m) := by
  induction room generalizing seen m with
  | zero =>
    rcases halts_or_look ctx 0 seen m with ⟨r, hr⟩ | ⟨_, _, -, -, -, hroom, -⟩
    · rw [resolveIn_of_halts hr]
      exact .of_halts hr
    · exact absurd rfl hroom
  | succ room ih =>
    rcases halts_or_look ctx (room + 1) seen m with
      ⟨r, hr⟩ | ⟨text, target, rfl, hname, hnew, -, hfind⟩
    · rw [resolveIn_of_halts hr]
      exact .of_halts hr
    · rw [resolveIn_look hname hnew hfind]
      exact .look hname hnew hfind (ih (seen ++ [Text.trim text]) target)

theorem resolveIn_of_reaches {m : Measure α} {r : Except Error α}
    (h : Reaches ctx room seen m r) : Measure.resolveIn ctx room seen m = r := by
  obtain ⟨names, last, hpath, hlength, hnodup, hfresh, hhalts⟩ := h
  induction hpath generalizing room seen with
  | stay m => exact resolveIn_of_halts (by simpa using hhalts)
  | @look text target last names hname hfind hrest ih =>
    obtain ⟨hnot, hnodup⟩ := List.nodup_cons.1 hnodup
    obtain ⟨room, rfl⟩ : ∃ k, room = k + 1 := ⟨room - 1, by simp at hlength; omega⟩
    rw [resolveIn_look hname (hfresh _ List.mem_cons_self) hfind]
    refine ih (by simpa using hlength) hnodup ?_ ?_
    · intro name hmem hseen
      rcases List.mem_append.1 hseen with hseen | hseen
      · exact hfresh name (List.mem_cons_of_mem _ hmem) hseen
      · obtain rfl := List.mem_singleton.1 hseen
        exact hnot hmem
    · rw [List.length_cons, Nat.add_sub_add_right] at hhalts
      rwa [List.append_assoc, List.singleton_append]

theorem resolve_iff {m : Measure α} {r : Except Error α} : m.resolve ctx = r ↔
    ∃ names last, Follows ctx.aliases m names last ∧ names.length ≤ Measure.maxAliases ∧
      names.Nodup ∧ Halts ctx (Measure.maxAliases - names.length) names last r := by
  constructor
  · rintro rfl
    obtain ⟨names, last, hpath, hlength, hnodup, -, hhalts⟩ :=
      reaches_resolveIn ctx Measure.maxAliases [] m
    exact ⟨names, last, hpath, hlength, hnodup, hhalts⟩
  · rintro ⟨names, last, hpath, hlength, hnodup, hhalts⟩
    exact resolveIn_of_reaches ⟨names, last, hpath, hlength, hnodup,
      fun _ _ => List.not_mem_nil, hhalts⟩

theorem resolve_ok_iff {m : Measure α} {v : α} : m.resolve ctx = .ok v ↔
    ∃ names last, Follows ctx.aliases m names last ∧ names.length ≤ Measure.maxAliases ∧
      Final ctx last v := by
  rw [resolve_iff]
  constructor
  · rintro ⟨names, last, hpath, hlength, -, hhalts⟩
    cases hhalts with
    | final h => exact ⟨names, last, hpath, hlength, h⟩
  · rintro ⟨names, last, hpath, hlength, hfinal⟩
    exact ⟨names, last, hpath, hlength, hpath.nodup hfinal.stops, .final hfinal⟩

theorem resolve_cycle_iff {m : Measure α} :
    (∃ name seen, m.resolve ctx = .error (.style (.aliasCycle name seen))) ↔
      ∃ names text, Follows ctx.aliases m names (.expr text) ∧
        names.length ≤ Measure.maxAliases ∧ ¬ Leads (Text.trim text).toList ∧
        Text.trim text ∈ names := by
  constructor
  · rintro ⟨name, seen, h⟩
    obtain ⟨names, last, hpath, hlength, -, hhalts⟩ := resolve_iff.1 h
    cases hhalts with
    | again hname hmem => exact ⟨_, _, hpath, hlength, hname, hmem⟩
  · rintro ⟨names, text, hpath, hlength, hname, hmem⟩
    have hagain : ¬ (names ++ [Text.trim text]).Nodup := fun h =>
      List.disjoint_of_nodup_append h hmem (List.mem_singleton_self _)
    obtain ⟨front, again, hfront, hle, hnot, hnodup, hmem'⟩ := hpath.first_again hname hagain
    exact ⟨_, _, resolve_iff.2
      ⟨front, .expr again, hfront, hle.trans hlength, hnodup, .again hnot hmem'⟩⟩

theorem resolve_deep_iff {m : Measure α} :
    (∃ name room, m.resolve ctx = .error (.style (.aliasTooDeep name room))) ↔
      ∃ names text, Follows ctx.aliases m names (.expr text) ∧
        names.length = Measure.maxAliases ∧ ¬ Leads (Text.trim text).toList ∧
        (names ++ [Text.trim text]).Nodup := by
  constructor
  · rintro ⟨name, room, h⟩
    obtain ⟨names, last, hpath, hlength, hnodup, hhalts⟩ := resolve_iff.1 h
    cases hhalts with
    | deep hname hnew hroom =>
      refine ⟨_, _, hpath, by omega, hname, ?_⟩
      rw [← List.concat_eq_append]
      exact hnodup.concat hnew
  · rintro ⟨names, text, hpath, hlength, hname, hnodup⟩
    rw [← List.concat_eq_append, List.nodup_concat] at hnodup
    exact ⟨_, _, resolve_iff.2 ⟨names, .expr text, hpath, le_of_eq hlength, hnodup.2,
      .deep hname hnodup.1 (by rw [hlength, Nat.sub_self])⟩⟩

/-! ## Lookups -/

/-- What a measure would be looked up by. -/
def ownName : Measure α → List String
  | .points _ => []
  | .expr text => [Text.trim text]

/-- Another table comes to the same end if it has the same entry for the name there, where it is
asked for it. -/
theorem Halts.congr {others : Table (Measure α)} {m : Measure α} {r : Except Error α}
    (h : Halts ctx room seen m r)
    (hsame : ∀ name ∈ (ownName m).take room, others.find? name = ctx.aliases.find? name) :
    Halts { ctx with aliases := others } room seen m r := by
  cases h with
  | @final m v h =>
    cases h with
    | points => exact .final (.points v)
    | expr h =>
      obtain ⟨d, hd, hv⟩ := final_expr_iff.1 (.expr h)
      exact .final (final_expr_iff.2 ⟨d, hd, hv⟩)
  | unsupported hd hunit => exact .unsupported hd hunit
  | again hname hmem => exact .again hname hmem
  | deep hname hnew hroom => exact .deep hname hnew hroom
  | @unknown text hname hnew hroom hnone =>
    refine .unknown hname hnew hroom ?_
    have hmem : Text.trim text ∈ (ownName (.expr text : Measure α)).take room := by
      obtain ⟨room, rfl⟩ := Nat.exists_eq_succ_of_ne_zero hroom
      simp [ownName]
    exact (hsame _ hmem).trans hnone

/-- What a measure is resolved to depends on no more entries than there is room for. -/
theorem exists_asked (ctx : MeasureContext α) (m : Measure α) :
    ∃ asked : List String, asked.length ≤ Measure.maxAliases ∧
      ∀ others : Table (Measure α), (∀ name ∈ asked, others.find? name = ctx.aliases.find? name) →
        m.resolve { ctx with aliases := others } = m.resolve ctx := by
  obtain ⟨names, last, hpath, hlength, hnodup, hhalts⟩ :=
    (@resolve_iff _ _ ctx m _).1 rfl
  refine ⟨names ++ (ownName last).take (Measure.maxAliases - names.length), ?_, ?_⟩
  · rw [List.length_append, List.length_take]
    omega
  · intro others hsame
    refine resolve_iff.2 ⟨names, last, hpath.congr ?_, hlength, hnodup, hhalts.congr ?_⟩
    · exact fun name hmem => hsame name (List.mem_append_left _ hmem)
    · exact fun name hmem => hsame name (List.mem_append_right _ hmem)

/-- Resolving asks a table for sixteen names at most.  It gives a value exactly if so many names lead
to an amount; it finds a cycle exactly if a name comes again behind so many; and it runs out of room
exactly if sixteen names lead to one more, all of them different. -/
theorem resolve_exact (m : Measure α) (ctx : MeasureContext α) :
    (∃ asked : List String, asked.length ≤ 16 ∧ ∀ others : Table (Measure α),
      (∀ name ∈ asked, others.find? name = ctx.aliases.find? name) →
        m.resolve { ctx with aliases := others } = m.resolve ctx) ∧
    (∀ v, m.resolve ctx = .ok v ↔ ∃ names last, Follows ctx.aliases m names last ∧
      names.length ≤ 16 ∧ Final ctx last v) ∧
    ((∃ name seen, m.resolve ctx = .error (.style (.aliasCycle name seen))) ↔
      ∃ names text, Follows ctx.aliases m names (.expr text) ∧ names.length ≤ 16 ∧
        ¬ Leads (Text.trim text).toList ∧ Text.trim text ∈ names) ∧
    ((∃ name room, m.resolve ctx = .error (.style (.aliasTooDeep name room))) ↔
      ∃ names text, Follows ctx.aliases m names (.expr text) ∧ names.length = 16 ∧
        ¬ Leads (Text.trim text).toList ∧ (names ++ [Text.trim text]).Nodup) :=
  ⟨exists_asked ctx m, fun _ => resolve_ok_iff, resolve_cycle_iff, resolve_deep_iff⟩

end Style
end Galley
