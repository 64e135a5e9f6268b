import Mathlib.Data.List.Induction
import Galley.Table

/-
What a table holds that is made of a list of entries.
-/

namespace Galley
namespace Table

variable {β : Type} {entries : List (String × β)} {e : String × β} {key : String} {value : β}

theorem ofList_concat (entries : List (String × β)) (e : String × β) :
    ofList (entries ++ [e]) = (ofList entries).insert e.1 e.2 := by
  unfold ofList
  rw [List.foldl_append]
  rfl

/-- Of a key that is written more than once the last value counts. -/
theorem find?_ofList (entries : List (String × β)) (key : String) :
    (ofList entries).find? key = (entries.reverse.find? fun e => e.1 = key).map Prod.snd := by
  induction entries using List.reverseRecOn with
  | nil => rfl
  | append_singleton entries e ih =>
    rw [ofList_concat, find?_insert, List.reverse_append, List.reverse_singleton,
      List.singleton_append]
    by_cases he : e.1 = key
    · simp [he]
    · simp [he, ih]

theorem mem_of_findEntry (h : findEntry key entries = some value) : (key, value) ∈ entries := by
  induction entries with
  | nil => cases h
  | cons entry entries ih =>
    obtain ⟨k, v⟩ := entry
    rw [findEntry] at h
    split at h
    · next heq =>
      cases h
      rw [heq]
      exact List.mem_cons_self
    · exact List.mem_cons_of_mem _ (ih h)

theorem mem_insertEntry (h : e ∈ insertEntry key value entries) :
    e = (key, value) ∨ e ∈ entries := by
  induction entries with
  | nil => exact Or.inl (List.mem_singleton.1 h)
  | cons f rest ih =>
    obtain ⟨k, v⟩ := f
    rw [insertEntry] at h
    split at h
    · rcases List.mem_cons.1 h with h | h
      · exact Or.inl h
      · exact Or.inr (List.mem_cons_of_mem _ h)
    · split at h
      · exact List.mem_cons.1 h
      · rcases List.mem_cons.1 h with h | h
        · exact Or.inr (h ▸ List.mem_cons_self)
        · exact (ih h).imp_right (List.mem_cons_of_mem _)

theorem mem_of_mem_ofList (h : e ∈ (ofList entries).entries) : e ∈ entries := by
  induction entries using List.reverseRecOn with
  | nil => cases h
  | append_singleton entries f ih =>
    rw [ofList_concat] at h
    rcases mem_insertEntry h with rfl | h
    · simp
    · exact List.mem_append_left _ (ih h)

end Table
end Galley
