import Mathlib
import Galley.Json.Reader
import Galley.Proofs.Table
import Galley.Style.Reading

/-
Tags whose names differ in case alone.

The names of a table that was read are put in lower case one after the other, and where two of them
come down to one name the later style is kept.  Nothing orders the names of a table, so a text can be
loaded as any of the registries that `Loads` allows.  Which styles a tag can have then is said by
`Spells` (`exists_loads_iff`): every order gives the same answers exactly if no two names that differ
in case alone have different styles (`answers_in_any_order_iff`).
-/

namespace Galley
namespace Style
namespace Registry

section

variable {α : Type} {entries : List (String × TagStyle α)} {tag : String} {style : TagStyle α}

/-! ## The tags of a table -/

/-- Among the entries is one for the tag, written in some case. -/
def Spells (entries : List (String × TagStyle α)) (tag : String) (style : TagStyle α) : Prop :=
  ∃ name, (name, style) ∈ entries ∧ Text.lowercase name.toList = tag

theorem spells_congr {order : List (String × TagStyle α)} (h : order.Perm entries) :
    Spells order tag style ↔ Spells entries tag style :=
  exists_congr fun _ => and_congr_left fun _ => h.mem_iff

theorem find?_tagsOf (entries : List (String × TagStyle α)) (tag : String) :
    (tagsOf entries).find? tag =
      (entries.reverse.find? fun e => Text.lowercase e.1.toList = tag).map Prod.snd := by
  unfold tagsOf
  rw [Table.find?_ofList, ← List.map_reverse, List.find?_map, Option.map_map]
  rfl

theorem spells_of_find? (h : (tagsOf entries).find? tag = some style) :
    Spells entries tag style := by
  rw [find?_tagsOf] at h
  obtain ⟨⟨name, _⟩, hfound, rfl⟩ := Option.map_eq_some_iff.1 h
  have hname := List.find?_some hfound
  exact ⟨name, List.mem_reverse.1 (List.mem_of_find?_eq_some hfound), by simpa using hname⟩

theorem find?_tagsOf_isSome (h : Spells entries tag style) :
    ((tagsOf entries).find? tag).isSome = true := by
  obtain ⟨name, hmem, hname⟩ := h
  rw [find?_tagsOf, Option.isSome_map, List.find?_isSome]
  exact ⟨(name, style), List.mem_reverse.2 hmem, by simpa using hname⟩

/-- An entry that is taken last is the one that counts. -/
theorem exists_order (h : Spells entries tag style) :
    ∃ order, order.Perm entries ∧ (tagsOf order).find? tag = some style := by
  obtain ⟨name, hmem, hname⟩ := h
  obtain ⟨front, back, rfl⟩ := List.append_of_mem hmem
  refine ⟨front ++ back ++ [(name, style)], ?_, ?_⟩
  · rw [List.append_assoc]
    exact (List.perm_append_singleton _ back).append_left front
  · rw [find?_tagsOf, List.reverse_append, List.reverse_singleton, List.singleton_append,
      List.find?_cons_of_pos (by simpa using hname)]
    rfl

end

/-! ## The tags of a text -/

section

variable [JsonReader]

/-- What a text can be loaded as, its tags being taken in some order. -/
def Loads (text : String) (r : Registry Float) : Prop :=
  ∃ written order, (JsonReader.json? text).bind written? = some written ∧
    order.Perm written.tags.entries ∧ r = { written with tags := tagsOf order }

theorem loads_of_ofText {text : String} {r : Registry Float} (h : ofText text = .ok r) :
    Loads text r := by
  unfold ofText at h
  split at h
  · next r' hread =>
    cases h
    obtain ⟨j, hj, hr⟩ := Option.bind_eq_some_iff.1 hread
    obtain ⟨written, hwritten, rfl⟩ := Option.map_eq_some_iff.1 hr
    exact ⟨written, _, Option.bind_eq_some_iff.2 ⟨j, hj, hwritten⟩, .refl _, rfl⟩
  · cases h

/-- The styles that a tag can have are those that it is spelled with. -/
theorem exists_loads_iff {text : String} {written : Registry Float}
    (hwritten : (JsonReader.json? text).bind written? = some written) {tag : String}
    {style : TagStyle Float} :
    (∃ r, Loads text r ∧ r.find? tag = some style) ↔ Spells written.tags.entries tag style := by
  constructor
  · rintro ⟨r, ⟨written', order, hwritten', horder, rfl⟩, hfind⟩
    obtain rfl : written' = written := Option.some.inj (hwritten'.symm.trans hwritten)
    exact (spells_congr horder).1 (spells_of_find? hfind)
  · intro h
    obtain ⟨order, horder, hfind⟩ := exists_order h
    exact ⟨_, ⟨written, order, hwritten, horder, rfl⟩, hfind⟩

/-- Whether a text has a tag does not depend on the order. -/
theorem find?_isSome_of_loads {text : String} {r r' : Registry Float} {tag : String}
    {style : TagStyle Float} (hr : Loads text r) (hr' : Loads text r')
    (h : r.find? tag = some style) : (r'.find? tag).isSome = true := by
  obtain ⟨written, order, hwritten, horder, rfl⟩ := hr'
  have hspells := (exists_loads_iff hwritten).1 ⟨r, hr, h⟩
  exact find?_tagsOf_isSome ((spells_congr horder).2 hspells)

/-- What a text is loaded as is among what it can be loaded as.  The order makes no difference
exactly if names that differ in case alone have the same style. -/
theorem answers_in_any_order_iff (text : String) :
    (∀ r, ofText text = .ok r → Loads text r) ∧
    ((∀ r r', Loads text r → Loads text r' → ∀ tag, r.find? tag = r'.find? tag) ↔
      ∀ written, (JsonReader.json? text).bind written? = some written →
        ∀ e ∈ written.tags.entries, ∀ f ∈ written.tags.entries,
          Text.lowercase e.1.toList = Text.lowercase f.1.toList → e.2 = f.2) := by
  refine ⟨fun r => loads_of_ofText, ?_, ?_⟩
  · intro hsame written hwritten e he f hf hname
    obtain ⟨r, hr, hre⟩ := (exists_loads_iff hwritten).2 ⟨e.1, he, hname⟩
    obtain ⟨r', hr', hrf⟩ := (exists_loads_iff hwritten).2 ⟨f.1, hf, rfl⟩
    have hanswer := hsame r r' hr hr' (Text.lowercase f.1.toList)
    rw [hre, hrf] at hanswer
    exact Option.some.inj hanswer
  · intro hstyles
    have hkept {r r' : Registry Float} {tag : String} {style : TagStyle Float}
        (hr : Loads text r) (hr' : Loads text r') (h : r.find? tag = some style) :
        r'.find? tag = some style := by
      obtain ⟨style', h'⟩ := Option.isSome_iff_exists.1 (find?_isSome_of_loads hr hr' h)
      obtain ⟨written, -, hwritten, -, -⟩ := id hr
      obtain ⟨name, hmem, hname⟩ := (exists_loads_iff hwritten).1 ⟨r, hr, h⟩
      obtain ⟨name', hmem', hname'⟩ := (exists_loads_iff hwritten).1 ⟨r', hr', h'⟩
      have hstyle := hstyles written hwritten _ hmem' _ hmem (hname'.trans hname.symm)
      exact h'.trans (congrArg some hstyle)
    intro r r' hr hr' tag
    exact Option.ext fun style => ⟨hkept hr hr', hkept hr' hr⟩

end

/-- A table with one tag in two cases, of which one is bold. -/
def twoCases : String :=
  "\x7b\"tags\": \x7b\"B\": \x7b\"fontWeight\": \"bold\"\x7d, \"b\": \x7b\x7d\x7d\x7d"

/-- The tag is bold or not as the order has it. -/
theorem bold_in_one_order :
    ∃ r r', Loads twoCases r ∧ Loads twoCases r' ∧ r.find? "b" ≠ r'.find? "b" := by
  have hread : JsonReader.json? twoCases = some (.object [("tags", .object
      [("B", .object [("fontWeight", .text "bold")]), ("b", .object [])])]) := by cbv
  have hwritten : (JsonReader.json? twoCases).bind written? =
      some { tags := ⟨[("B", bold), ("b", {})]⟩, measures := .ofList builtinMeasures } := by
    rw [hread]
    rfl
  refine ⟨_, _, ⟨_, [("B", bold), ("b", {})], hwritten, .refl _, rfl⟩,
    ⟨_, [("b", {}), ("B", bold)], hwritten, .swap _ _ _, rfl⟩, fun h => ?_⟩
  have hplain : (tagsOf [("B", bold), ("b", ({} : TagStyle Float))]).find? "b" = some {} := by cbv
  have hbold : (tagsOf [("b", {}), ("B", (bold : TagStyle Float))]).find? "b" = some bold := by cbv
  have hstyles : some {} = some (bold : TagStyle Float) := hplain.symm.trans (h.trans hbold)
  exact absurd (congrArg TagStyle.fontWeight (Option.some.inj hstyles)) (by decide)

end Registry
end Style
end Galley
