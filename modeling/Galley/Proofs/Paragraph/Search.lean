import Galley.Proofs.Paragraph.Growth

/-
The search for the best sequence of lines, over what `grow` says of single lines.

A `Course` is a sequence of breaks, each from where the one before leads.  Whatever the search
keeps for a place is a course to it (`Sound`), and in exact arithmetic no course to the place is
better (`Complete`).  Both are kept by each step, because every course to a place comes from a
place before it.
-/

namespace Galley
namespace Paragraph

section

variable {α : Type} [Scalar α]

/-- Breaks that a line may end with that starts at `s`. -/
def breaksFrom (limits : Limits α) (items : List (Instruction α)) (s : Nat) : List (Break α) :=
  (grow limits s .start (items.drop s)).breaks

/-- Penalty of a last line that starts at `s`, if there can be one. -/
def endFrom (limits : Limits α) (items : List (Instruction α)) (s : Nat) : Option α :=
  (grow limits s .start (items.drop s)).toEnd

/-- Lines that end with these breaks lead from the first place to the second. -/
inductive Course (limits : Limits α) (items : List (Instruction α)) :
    Nat → List (Break α) → Nat → Prop where
  | nil (s : Nat) : Course limits items s [] s
  | cons {s t : Nat} {b : Break α} {bs : List (Break α)} (hb : b ∈ breaksFrom limits items s)
      (hn : b.next < items.length) (h : Course limits items b.next bs t) :
      Course limits items s (b :: bs) t

/-- The way over the breaks of a course that starts at the first instruction. -/
def Path.along (bs : List (Break α)) : Path α :=
  bs.foldl Path.extend { badness := 0, starts := [0], width := 0 }

theorem Path.along_concat (bs : List (Break α)) (b : Break α) :
    Path.along (bs ++ [b]) = (Path.along bs).extend b := by
  simp [Path.along]

theorem Path.starts_foldl (bs : List (Break α)) (p : Path α) :
    (bs.foldl Path.extend p).starts.reverse = p.starts.reverse ++ bs.map Break.next := by
  induction bs generalizing p with
  | nil => simp
  | cons b bs ih =>
    rw [List.foldl_cons, ih]
    simp [Path.extend]

theorem Path.starts_along (bs : List (Break α)) :
    (Path.along bs).starts.reverse = 0 :: bs.map Break.next :=
  Path.starts_foldl bs { badness := 0, starts := [0], width := 0 }

theorem lt_next_of_mem {limits : Limits α} {items : List (Instruction α)} {s : Nat}
    {b : Break α} (hb : b ∈ breaksFrom limits items s) : s < b.next := by
  obtain ⟨front, i, rest, -, -, -, rfl⟩ := (mem_breaks_iff limits s [] (items.drop s) b).1 hb
  show s < s + front.length + 1 + leadingSpaces rest
  omega

omit [Scalar α] in
/-- A line that ends with `i` takes the white space behind it along. -/
theorem take_of_break {items front rest : List (Instruction α)} {s : Nat} {i : Instruction α}
    (h : items.drop s = front ++ i :: rest) :
    (items.drop s).take (s + front.length + 1 + leadingSpaces rest - s) =
      (front ++ [i]) ++ rest.takeWhile Instruction.discardable := by
  have hlength : s + front.length + 1 + leadingSpaces rest - s =
      (front ++ [i]).length + leadingSpaces rest := by
    rw [List.length_append, List.length_singleton]
    omega
  have hsplit : front ++ i :: rest = (front ++ [i]) ++ rest := List.append_cons front i rest
  rw [h, hlength, hsplit, List.take_length_add_append, take_leadingSpaces]

omit [Scalar α] in
theorem drop_of_break {items front spaces after : List (Instruction α)} {s : Nat}
    {i : Instruction α} (h : items.drop s = front ++ i :: (spaces ++ after)) :
    items.drop (s + front.length + 1 + spaces.length) = after := by
  have hlength : s + front.length + 1 + spaces.length = s + (front ++ i :: spaces).length := by
    rw [List.length_append, List.length_cons]
    omega
  have hsplit : front ++ i :: (spaces ++ after) = (front ++ i :: spaces) ++ after := by simp
  rw [hlength, ← List.drop_drop, h, hsplit, List.drop_left]

namespace Course

variable {limits : Limits α} {items : List (Instruction α)}

theorem concat {s t : Nat} {b : Break α} {bs : List (Break α)} (h : Course limits items s bs t)
    (hb : b ∈ breaksFrom limits items t) (hn : b.next < items.length) :
    Course limits items s (bs ++ [b]) b.next := by
  induction h with
  | nil s => exact .cons hb hn (.nil _)
  | cons hb' hn' _ ih => exact .cons hb' hn' (ih hb)

/-- A course ends where it starts or over a break from a place before its end. -/
theorem cases_last {s t : Nat} {bs : List (Break α)} (h : Course limits items s bs t) :
    (bs = [] ∧ s = t) ∨ ∃ bs' b u, bs = bs' ++ [b] ∧ Course limits items s bs' u ∧
      b ∈ breaksFrom limits items u ∧ b.next < items.length ∧ b.next = t ∧ u < t := by
  induction h with
  | nil s => exact Or.inl ⟨rfl, rfl⟩
  | @cons s t b bs hb hn h ih =>
    right
    rcases ih with ⟨rfl, rfl⟩ | ⟨bs', c, u, rfl, hu, hc, hcn, rfl, hlt⟩
    · exact ⟨[], b, s, rfl, .nil s, hb, hn, rfl, lt_next_of_mem hb⟩
    · exact ⟨b :: bs', c, u, rfl, .cons hb hn hu, hc, hcn, rfl, hlt⟩

theorem lt_length {s : Nat} {bs : List (Break α)} (hitems : items ≠ [])
    (h : Course limits items 0 bs s) : s < items.length := by
  rcases h.cases_last with ⟨_, rfl⟩ | ⟨_, _, _, _, _, _, hn, rfl, _⟩
  · exact List.length_pos_iff.2 hitems
  · exact hn

end Course

/-! ## What the search keeps is a course -/

theorem betterPath_eq (old : Option (Path α)) (new : Path α) :
    betterPath old new = new ∨ old = some (betterPath old new) := by
  cases old with
  | none => exact Or.inl rfl
  | some old =>
    unfold betterPath
    dsimp only
    split
    · exact Or.inl rfl
    · exact Or.inr rfl

theorem size_enterBreaks (path : Path α) (best : Array (Option (Path α)))
    (breaks : List (Break α)) : (enterBreaks path best breaks).size = best.size := by
  unfold enterBreaks
  induction breaks generalizing best with
  | nil => rfl
  | cons b breaks ih => rw [List.foldl_cons, ih, Array.size_modify]

/-- What is kept for a place after the breaks of a line are entered was there before or goes over
one of them. -/
theorem enterBreaks_sound {path p : Path α} {best : Array (Option (Path α))}
    {breaks : List (Break α)} {t : Nat} (h : (enterBreaks path best breaks)[t]? = some (some p)) :
    best[t]? = some (some p) ∨ ∃ b ∈ breaks, b.next = t ∧ p = path.extend b := by
  unfold enterBreaks at h
  induction breaks generalizing best with
  | nil => exact Or.inl h
  | cons b breaks ih =>
    rw [List.foldl_cons] at h
    rcases ih h with hbest | ⟨c, hc, hnext, hp⟩
    · rw [Array.getElem?_modify] at hbest
      split at hbest
      · next hnext =>
        -- the entry is the better of the one there was and the way over `b`
        cases hold : best[t]? with
        | none => simp [hold] at hbest
        | some old =>
          have hp : betterPath old (path.extend b) = p := by simpa [hold] using hbest
          rcases betterPath_eq old (path.extend b) with hnew | hkept
          · exact Or.inr ⟨b, List.mem_cons_self, hnext, by rw [← hp, hnew]⟩
          · exact Or.inl (by rw [hkept, hp])
      · exact Or.inl hbest
    · exact Or.inr ⟨c, List.mem_cons_of_mem b hc, hnext, hp⟩

/-- A course to the end with its last line. -/
def Finished (limits : Limits α) (items : List (Instruction α)) (p : Path α) : Prop :=
  ∃ bs s c, Course limits items 0 bs s ∧ endFrom limits items s = some c ∧
    p = { Path.along bs with badness := (Path.along bs).badness + c }

structure Sound (limits : Limits α) (items : List (Instruction α))
    (best : Array (Option (Path α))) (final : Option (Path α)) : Prop where
  size : best.size = items.length
  course : ∀ t p, best[t]? = some (some p) →
    ∃ bs, Course limits items 0 bs t ∧ p = Path.along bs
  finished : ∀ p, final = some p → Finished limits items p

/-- The best way to the end, once lines from the end of `path` have been followed. -/
def Path.orBetter (final : Option (Path α)) (path : Path α) : Option α → Option (Path α)
  | some penalty => some (betterPath final { path with badness := path.badness + penalty })
  | none => final

theorem Sound.step {limits : Limits α} {items : List (Instruction α)}
    {best : Array (Option (Path α))} {final : Option (Path α)} {place : Nat} {path : Path α}
    (h : Sound limits items best final) (hpath : best[place]? = some (some path)) :
    Sound limits items (enterBreaks path best (breaksFrom limits items place))
      (path.orBetter final (endFrom limits items place)) := by
  obtain ⟨bs, hbs, rfl⟩ := h.course place path hpath
  refine ⟨(size_enterBreaks _ _ _).trans h.size, fun t p hp => ?_, fun p hp => ?_⟩
  · have ht : t < items.length := by
      rw [← h.size, ← size_enterBreaks (Path.along bs) best (breaksFrom limits items place)]
      exact (Array.getElem?_eq_some_iff.1 hp).1
    rcases enterBreaks_sound hp with hold | ⟨b, hb, rfl, rfl⟩
    · exact h.course t p hold
    · exact ⟨bs ++ [b], hbs.concat hb ht, (Path.along_concat bs b).symm⟩
  · cases hend : endFrom limits items place with
    | none => rw [hend] at hp; exact h.finished p hp
    | some c =>
      rw [hend] at hp
      rw [← Option.some.inj hp]
      rcases betterPath_eq final { Path.along bs with badness := (Path.along bs).badness + c }
        with hnew | hkept
      · rw [hnew]; exact ⟨bs, place, c, hbs, hend, rfl⟩
      · exact h.finished _ hkept

theorem searchFrom_cons {limits : Limits α} {items rest : List (Instruction α)} {place : Nat}
    {i : Instruction α} (hdrop : items.drop place = i :: rest)
    (best : Array (Option (Path α))) (final : Option (Path α)) :
    (∃ path, best[place]? = some (some path) ∧
      searchFrom limits place (i :: rest) best final =
        searchFrom limits (place + 1) rest
          (enterBreaks path best (breaksFrom limits items place))
          (path.orBetter final (endFrom limits items place))) ∨
    ((∀ path, best[place]? ≠ some (some path)) ∧
      searchFrom limits place (i :: rest) best final =
        searchFrom limits (place + 1) rest best final) := by
  unfold breaksFrom endFrom
  rw [searchFrom, hdrop]
  split
  · next path hpath =>
    refine Or.inl ⟨path, hpath, ?_⟩
    dsimp only
    generalize (grow limits place .start (i :: rest)).toEnd = penalty
    cases penalty <;> rfl
  · next hnone => exact Or.inr ⟨hnone, rfl⟩

omit [Scalar α] in
theorem drop_succ_of_drop {items rest : List (Instruction α)} {place : Nat} {i : Instruction α}
    (h : items.drop place = i :: rest) : items.drop (place + 1) = rest := by
  rw [← List.drop_drop, h]
  rfl

theorem searchFrom_sound {limits : Limits α} {items rest : List (Instruction α)} {place : Nat}
    (hdrop : items.drop place = rest) {best : Array (Option (Path α))}
    {final : Option (Path α)} (h : Sound limits items best final) :
    ∀ p, searchFrom limits place rest best final = some p → Finished limits items p := by
  induction rest generalizing place best final with
  | nil => exact h.finished
  | cons i rest ih =>
    rcases searchFrom_cons hdrop best final with ⟨path, hpath, hnext⟩ | ⟨_, hnext⟩
    · rw [hnext]
      exact ih (drop_succ_of_drop hdrop) (h.step hpath)
    · rw [hnext]
      exact ih (drop_succ_of_drop hdrop) h

def startPaths (n : Nat) : Array (Option (Path α)) :=
  (Array.replicate n none).modify 0 fun _ => some (Path.along [])

theorem startPaths_zero {n : Nat} (hn : 0 < n) :
    (startPaths n : Array (Option (Path α)))[0]? = some (some (Path.along [])) := by
  rw [startPaths, Array.getElem?_modify, if_pos rfl, Array.getElem?_replicate, if_pos hn]
  rfl

theorem startPaths_sound (limits : Limits α) (items : List (Instruction α)) :
    Sound limits items (startPaths items.length) none := by
  refine ⟨by simp [startPaths], fun t p hp => ?_, by simp⟩
  unfold startPaths at hp
  rw [Array.getElem?_modify] at hp
  split at hp
  · next ht =>
    subst ht
    obtain ⟨_, _, rfl⟩ : ∃ a, (Array.replicate items.length none)[0]? = some a ∧
        Path.along [] = p := by simpa using hp
    exact ⟨[], .nil 0, rfl⟩
  · simp [Array.getElem?_replicate] at hp

theorem findBreaks_eq (limits : Limits α) (items : List (Instruction α)) :
    findBreaks limits items =
      (searchFrom limits 0 items (startPaths items.length) none).map fun p =>
        p.starts.reverse := rfl

theorem findBreaks_sound {limits : Limits α} {items : List (Instruction α)} {starts : List Nat}
    (h : findBreaks limits items = some starts) :
    ∃ bs s c, Course limits items 0 bs s ∧ endFrom limits items s = some c ∧
      starts = 0 :: bs.map Break.next := by
  rw [findBreaks_eq] at h
  obtain ⟨p, hp, rfl⟩ := Option.map_eq_some_iff.1 h
  obtain ⟨bs, s, c, hbs, hend, rfl⟩ :=
    searchFrom_sound List.drop_zero (startPaths_sound limits items) p hp
  exact ⟨bs, s, c, hbs, hend, Path.starts_along bs⟩

end

/-! ## What the search keeps is best -/

section

variable {limits : Limits Rat} {items : List (Instruction Rat)}

/-- Something at most this bad is kept for the place. -/
def AtMost (best : Array (Option (Path Rat))) (t : Nat) (c : Rat) : Prop :=
  ∃ p, best[t]? = some (some p) ∧ p.badness ≤ c

theorem betterPath_le_new (old : Option (Path Rat)) (new : Path Rat) :
    (betterPath old new).badness ≤ new.badness := by
  cases old with
  | none => exact le_refl _
  | some old =>
    unfold betterPath
    dsimp only
    split
    · exact le_refl _
    · next h => exact not_lt.1 h

theorem betterPath_le_old (old new : Path Rat) :
    (betterPath (some old) new).badness ≤ old.badness := by
  unfold betterPath
  dsimp only
  split
  · next h => exact le_of_lt h
  · exact le_refl _

theorem AtMost.mono {best : Array (Option (Path Rat))} {t : Nat} {c d : Rat}
    (h : AtMost best t c) (hcd : c ≤ d) : AtMost best t d := by
  obtain ⟨p, hp, hle⟩ := h
  exact ⟨p, hp, hle.trans hcd⟩

theorem AtMost.enterBreaks {path : Path Rat} {best : Array (Option (Path Rat))}
    (breaks : List (Break Rat)) {t : Nat} {c : Rat} (h : AtMost best t c) :
    AtMost (enterBreaks path best breaks) t c := by
  unfold Paragraph.enterBreaks
  induction breaks generalizing best with
  | nil => exact h
  | cons b breaks ih =>
    obtain ⟨p, hp, hle⟩ := h
    rw [List.foldl_cons]
    refine ih ?_
    by_cases hnext : b.next = t
    · refine ⟨betterPath (some p) (path.extend b), ?_, (betterPath_le_old _ _).trans hle⟩
      rw [Array.getElem?_modify, if_pos hnext, hp]
      rfl
    · exact ⟨p, by rw [Array.getElem?_modify, if_neg hnext, hp], hle⟩

theorem atMost_enterBreaks {path : Path Rat} {best : Array (Option (Path Rat))}
    {breaks : List (Break Rat)} {b : Break Rat} (hb : b ∈ breaks) (hn : b.next < best.size) :
    AtMost (enterBreaks path best breaks) b.next (path.badness + b.badness) := by
  induction breaks generalizing best with
  | nil => simp at hb
  | cons d breaks ih =>
    unfold enterBreaks
    rw [List.foldl_cons]
    rcases List.mem_cons.1 hb with rfl | hb
    · refine AtMost.enterBreaks breaks ?_
      refine ⟨betterPath best[b.next] (path.extend b), ?_, betterPath_le_new _ _⟩
      rw [Array.getElem?_modify, if_pos rfl, Array.getElem?_eq_getElem hn]
      rfl
    · exact ih hb (by rwa [Array.size_modify])

/-- No course over a line from before `place` is better than what is kept. -/
structure Complete (limits : Limits Rat) (items : List (Instruction Rat)) (place : Nat)
    (best : Array (Option (Path Rat))) (final : Option (Path Rat)) : Prop where
  start : AtMost best 0 0
  next : ∀ bs s b, Course limits items 0 bs s → s < place → b ∈ breaksFrom limits items s →
    b.next < items.length → AtMost best b.next ((Path.along bs).badness + b.badness)
  final : ∀ bs s c, Course limits items 0 bs s → s < place → endFrom limits items s = some c →
    ∃ p, final = some p ∧ p.badness ≤ (Path.along bs).badness + c

/-- When a place is reached, all courses to it have been followed. -/
theorem Complete.atMost {place : Nat} {best : Array (Option (Path Rat))}
    {final : Option (Path Rat)} (h : Complete limits items place best final)
    {bs : List (Break Rat)} (hbs : Course limits items 0 bs place) :
    AtMost best place (Path.along bs).badness := by
  rcases hbs.cases_last with ⟨rfl, rfl⟩ | ⟨bs', b, u, rfl, hu, hb, hn, rfl, hlt⟩
  · exact h.start
  · rw [Path.along_concat]
    exact h.next bs' u b hu hlt hb hn

theorem orBetter_le_old {final : Option (Path Rat)} {p : Path Rat} (hp : final = some p)
    (path : Path Rat) (penalty : Option Rat) :
    ∃ q, path.orBetter final penalty = some q ∧ q.badness ≤ p.badness := by
  subst hp
  cases penalty with
  | none => exact ⟨p, rfl, le_refl _⟩
  | some c => exact ⟨_, rfl, betterPath_le_old _ _⟩

theorem Complete.step {place : Nat} {best : Array (Option (Path Rat))}
    {final : Option (Path Rat)} {path : Path Rat} (hs : Sound limits items best final)
    (h : Complete limits items place best final) (hpath : best[place]? = some (some path)) :
    Complete limits items (place + 1)
      (enterBreaks path best (breaksFrom limits items place))
      (path.orBetter final (endFrom limits items place)) := by
  have hleast (bs : List (Break Rat)) (hbs : Course limits items 0 bs place) :
      path.badness ≤ (Path.along bs).badness := by
    obtain ⟨p, hp, hle⟩ := h.atMost hbs
    rw [hpath] at hp
    obtain rfl : path = p := Option.some.inj (Option.some.inj hp)
    exact hle
  -- courses over a line from before `place` are known; those over one from `place` are new
  refine ⟨h.start.enterBreaks _, fun bs s b hbs hlt hb hn => ?_, fun bs s c hbs hlt hc => ?_⟩
  · rcases Nat.lt_or_eq_of_le (Nat.le_of_lt_succ hlt) with hlt | rfl
    · exact (h.next bs s b hbs hlt hb hn).enterBreaks _
    · have hnew : AtMost _ b.next (path.badness + b.badness) :=
        atMost_enterBreaks hb (by rw [hs.size]; exact hn)
      have := hleast bs hbs
      exact hnew.mono (by linarith)
  · rcases Nat.lt_or_eq_of_le (Nat.le_of_lt_succ hlt) with hlt | rfl
    · obtain ⟨p, hp, hle⟩ := h.final bs s c hbs hlt hc
      obtain ⟨q, hq, hqp⟩ := orBetter_le_old hp path (endFrom limits items place)
      exact ⟨q, hq, hqp.trans hle⟩
    · refine ⟨betterPath final { path with badness := path.badness + c }, by rw [hc]; rfl, ?_⟩
      refine (betterPath_le_new _ _).trans ?_
      show path.badness + c ≤ _
      have := hleast bs hbs
      linarith

theorem Complete.skip {place : Nat} {best : Array (Option (Path Rat))}
    {final : Option (Path Rat)} (h : Complete limits items place best final)
    (hnone : ∀ path, best[place]? ≠ some (some path)) :
    Complete limits items (place + 1) best final := by
  -- a course to `place` would have left something there
  have hcourse (bs : List (Break Rat)) : ¬ Course limits items 0 bs place := by
    intro hbs
    obtain ⟨p, hp, _⟩ := h.atMost hbs
    exact hnone p hp
  refine ⟨h.start, fun bs s b hbs hlt hb hn => ?_, fun bs s c hbs hlt hc => ?_⟩
  · rcases Nat.lt_or_eq_of_le (Nat.le_of_lt_succ hlt) with hlt | rfl
    · exact h.next bs s b hbs hlt hb hn
    · exact absurd hbs (hcourse bs)
  · rcases Nat.lt_or_eq_of_le (Nat.le_of_lt_succ hlt) with hlt | rfl
    · exact h.final bs s c hbs hlt hc
    · exact absurd hbs (hcourse bs)

theorem searchFrom_complete {rest : List (Instruction Rat)} {place : Nat}
    (hdrop : items.drop place = rest) {best : Array (Option (Path Rat))}
    {final : Option (Path Rat)} (hs : Sound limits items best final)
    (h : Complete limits items place best final) {bs : List (Break Rat)} {s : Nat} {c : Rat}
    (hbs : Course limits items 0 bs s) (hlt : s < items.length)
    (hc : endFrom limits items s = some c) :
    ∃ p, searchFrom limits place rest best final = some p ∧
      p.badness ≤ (Path.along bs).badness + c := by
  induction rest generalizing place best final with
  | nil =>
    have hplace : items.length ≤ place := List.drop_eq_nil_iff.1 hdrop
    exact h.final bs s c hbs (by omega) hc
  | cons i rest ih =>
    rcases searchFrom_cons hdrop best final with ⟨path, hpath, hnext⟩ | ⟨hnone, hnext⟩
    · rw [hnext]
      exact ih (drop_succ_of_drop hdrop) (hs.step hpath) (h.step hs hpath)
    · rw [hnext]
      exact ih (drop_succ_of_drop hdrop) hs (h.skip hnone)

theorem startPaths_complete (hitems : items ≠ []) :
    Complete limits items 0 (startPaths items.length) none :=
  ⟨⟨_, startPaths_zero (List.length_pos_iff.2 hitems), le_refl _⟩,
    fun _ _ _ _ hlt => absurd hlt (Nat.not_lt_zero _),
    fun _ _ _ _ hlt => absurd hlt (Nat.not_lt_zero _)⟩

/-- The starts that are found are those of a course, and no course is better. -/
theorem findBreaks_least (hitems : items ≠ []) {starts : List Nat}
    (h : findBreaks limits items = some starts) :
    ∃ bs s c, Course limits items 0 bs s ∧ endFrom limits items s = some c ∧
      starts = 0 :: bs.map Break.next ∧
      ∀ bs' s' c', Course limits items 0 bs' s' → endFrom limits items s' = some c' →
        (Path.along bs).badness + c ≤ (Path.along bs').badness + c' := by
  rw [findBreaks_eq] at h
  obtain ⟨p, hp, rfl⟩ := Option.map_eq_some_iff.1 h
  obtain ⟨bs, s, c, hbs, hc, rfl⟩ :=
    searchFrom_sound List.drop_zero (startPaths_sound limits items) p hp
  refine ⟨bs, s, c, hbs, hc, Path.starts_along bs, fun bs' s' c' hbs' hc' => ?_⟩
  obtain ⟨q, hq, hle⟩ := searchFrom_complete List.drop_zero (startPaths_sound limits items)
    (startPaths_complete hitems) hbs' (hbs'.lt_length hitems) hc'
  rw [hp] at hq
  cases hq
  exact hle

theorem findBreaks_exists (hitems : items ≠ []) {bs : List (Break Rat)} {s : Nat} {c : Rat}
    (hbs : Course limits items 0 bs s) (hc : endFrom limits items s = some c) :
    ∃ starts, findBreaks limits items = some starts := by
  obtain ⟨p, hp, _⟩ := searchFrom_complete List.drop_zero (startPaths_sound limits items)
    (startPaths_complete hitems) hbs (hbs.lt_length hitems) hc
  exact ⟨p.starts.reverse, by rw [findBreaks_eq, hp]; rfl⟩

end

end Paragraph
end Galley
