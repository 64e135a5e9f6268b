import Mathlib
import Galley.Proofs.Markup.Progress

/-
White space behind a text.

Its tokens are those of the text with one more space at the end: the white space is a token of its
own, or it goes on in the text that came last (`next_extend`, `next_extend_end`).  A scanner is at
the same place in both texts all along, since what it has read and what it has left make up the
whole text (`reach_next`).
-/

namespace Galley
namespace Markup

/-! ## Runs -/

/-- A space stands alone, so a run of white space is known by its text. -/
def IsRun (run : String) : Prop := run = " " ∨ ' ' ∉ run.toList

theorem isRun_char (c : Char) : IsRun c.toString := by
  by_cases hc : c = ' '
  · exact Or.inl (by rw [hc]; rfl)
  · refine Or.inr ?_
    have hne : ' ' ≠ c := fun h => hc h.symm
    simpa [Char.toString] using hne

theorem RunsAs.isRun {cs : List Char} {runs : List String} (h : RunsAs cs runs) :
    ∀ run ∈ runs, IsRun run := by
  induction h with
  | nil => simp
  | @run piece rest runs k hne hk hnext hrest ih =>
    refine List.forall_mem_cons.2 ⟨?_, ih⟩
    split
    · exact Or.inl rfl
    · next hspace =>
      refine Or.inr ?_
      rw [String.toList_ofList]
      intro hmem
      exact hspace ((hk ' ' hmem).symm.trans (by decide))

theorem isPlain_of_spaces {ws : List Char} (hws : Spaces ws) : ∀ c ∈ ws, isPlain c = true := by
  have hall : ∀ c ∈ whiteSpace, isPlain c = true := by simp [whiteSpace, isPlain]
  exact fun c hc => hall c (isSpace_iff_mem.1 (hws c hc))

theorem classOf_of_spaces {ws : List Char} (hws : Spaces ws) : ∀ c ∈ ws, classOf c = .space := by
  have hall : ∀ c ∈ whiteSpace, classOf c = .space := by
    simp [whiteSpace, classOf, isDash, Text.isSpace]
  exact fun c hc => hall c (isSpace_iff_mem.1 (hws c hc))

theorem runsAs_spaces {ws : List Char} (hws : Spaces ws) (hne : ws ≠ []) : RunsAs ws [" "] := by
  have h := RunsAs.run .space hne (classOf_of_spaces hws) (by simp) .nil
  rwa [List.append_nil] at h

/-- White space behind a text is one more run, or goes on in the last one. -/
theorem RunsAs.append_spaces {cs ws : List Char} {runs : List String} (h : RunsAs cs runs)
    (hws : Spaces ws) (hne : ws ≠ []) :
    RunsAs (cs ++ ws) (runs ++ [" "]) ∨ RunsAs (cs ++ ws) runs ∧ runs.getLast? = some " " := by
  have hclass := classOf_of_spaces hws
  induction h with
  | nil => exact Or.inl (runsAs_spaces hws hne)
  | @run piece rest runs k hpiece hk hnext hrest ih =>
    rw [List.append_assoc]
    by_cases hend : rest = []
    · subst hend
      obtain rfl : runs = [] := hrest.eq_runsOf
      by_cases hspace : k = .space
      · subst hspace
        have hall : ∀ c ∈ piece ++ ws, classOf c = .space := by
          intro c hc
          exact (List.mem_append.1 hc).elim (hk c) (hclass c)
        have h := RunsAs.run .space (by simp [hpiece]) hall (by simp) .nil
        rw [List.append_nil] at h
        exact Or.inr ⟨h, rfl⟩
      · refine Or.inl (.run k hpiece hk ?_ (runsAs_spaces hws hne))
        intro c hc heq
        exact hspace (heq.symm.trans (hclass c (List.mem_of_head? hc)))
    · have hhead : (rest ++ ws).head? = rest.head? := List.head?_append_of_ne_nil rest hend
      rw [← hhead] at hnext
      rcases ih with hmore | ⟨hsame, hlast⟩
      · exact Or.inl (.run k hpiece hk hnext hmore)
      · refine Or.inr ⟨.run k hpiece hk hnext hsame, ?_⟩
        rw [List.getLast?_cons, hlast]
        rfl

namespace Scanner

/-! ## Places in the text -/

/-- Where the text ends. -/
def reach (s : Scanner) : Nat := s.position + byteLength s.rest

/-- What has been read and what is left make up the whole text. -/
theorem reach_next (s : Scanner) : s.next.2.reach = s.reach := by
  obtain ⟨read, hrest, hposition, -⟩ := reads_next s
  rw [reach, reach, hrest, hposition, byteLength_append, Nat.add_assoc]

/-! ## White space behind the text -/

/-- The scanner of a text with more behind it. -/
def extend (s : Scanner) (more : List Char) : Scanner := { s with rest := s.rest ++ more }

theorem reach_extend (s : Scanner) (more : List Char) :
    (s.extend more).reach = s.reach + byteLength more := by
  show s.position + byteLength (s.rest ++ more) = _
  rw [byteLength_append, reach, Nat.add_assoc]

/-- What a scanner hands out in the longer text, and where it is then. -/
theorem next_extend_of_found {s t : Scanner} {token : Token} {more : List Char}
    (h : s.next = (.ok (some token), t)) (hfound : Found (s.extend more) (t.extend more) token) :
    (s.extend more).next = (.ok (some token), t.extend more) := by
  obtain ⟨u, hu, hrest, hpending⟩ := next_of_found hfound
  have hreach : u.reach = (t.extend more).reach := by
    have hs := reach_next s
    have hlong := reach_next (s.extend more)
    rw [h] at hs
    rw [hu, reach_extend, ← hs, ← reach_extend] at hlong
    exact hlong
  have hposition : u.position = (t.extend more).position := by
    rw [reach, reach, hrest] at hreach
    exact Nat.add_right_cancel hreach
  rw [hu]
  obtain ⟨rest, position, pending⟩ := u
  dsimp only at hrest hpending hposition
  rw [hrest, hpending, hposition]

/-- All the scanner has still to read is text that stands for `runs`. -/
structure LastText (s : Scanner) (runs : List String) : Prop where
  pending : s.pending = none
  nonempty : s.rest ≠ []
  plain : ∀ c ∈ s.rest, isPlain c = true
  runs : RunsAs s.rest runs

/-- Text that nothing stands behind is the last token. -/
theorem LastText.next {s : Scanner} {runs : List String} (h : LastText s runs) :
    ∃ u, s.next = (.ok (some (.text runs)), u) ∧ u.next = (.ok none, u) := by
  obtain ⟨u, hu, hrest, hpending⟩ := next_of_found (.text (t := { rest := [] }) h.pending
    (List.append_nil s.rest).symm h.nonempty h.plain (by simp [StopsAt]) h.runs rfl)
  exact ⟨u, hu, next_of_nil hpending hrest⟩

/-- White space goes on in the text, as a run of its own or in the last run. -/
theorem LastText.extend {s : Scanner} {runs : List String} (h : LastText s runs) {ws : List Char}
    (hws : Spaces ws) (hne : ws ≠ []) :
    LastText (s.extend ws) (runs ++ [" "]) ∨
      LastText (s.extend ws) runs ∧ runs.getLast? = some " " := by
  have hlong {runs' : List String} (hruns : RunsAs (s.rest ++ ws) runs') :
      LastText (s.extend ws) runs' := by
    refine ⟨h.pending, List.append_ne_nil_of_left_ne_nil h.nonempty ws, ?_, hruns⟩
    intro c hc
    exact (List.mem_append.1 hc).elim (h.plain c) (isPlain_of_spaces hws c)
  exact (h.runs.append_spaces hws hne).imp hlong (And.imp_left hlong)

/-- What stands first in a text stands first in the longer text, but text at the end may grow. -/
theorem Found.extend {s t : Scanner} {token : Token} (h : Found s t token) (more : List Char) :
    Found (s.extend more) (t.extend more) token ∨
      ∃ runs, token = .text runs ∧ LastText s runs ∧ t.rest = [] ∧ t.pending = none := by
  have hlong {cs : List Char} (hs : s.rest = cs) : (s.extend more).rest = cs ++ more :=
    congrArg (· ++ more) hs
  cases h with
  | owed hp hrest ht => exact Or.inl (.owed hp (congrArg (· ++ more) hrest) ht)
  | @text cs runs hp hs hne hcs hnext hruns ht =>
    by_cases hend : t.rest = []
    · rw [hend, List.append_nil] at hs
      subst hs
      exact Or.inr ⟨runs, rfl, ⟨hp, hne, hcs, hruns⟩, hend, ht⟩
    · refine Or.inl (.text hp ?_ hne hcs ((stopsAt_append hend).2 hnext) hruns ht)
      rw [hlong hs, List.append_assoc]
      rfl
  | entity hp hs hname ht =>
    refine Or.inl (.entity hp ?_ hname ht)
    rw [hlong hs]
    simp [Scanner.extend]
  | opening hp hs hname hspaces hwritten ht =>
    refine Or.inl (.opening hp ?_ hname hspaces hwritten ht)
    rw [hlong hs]
    simp [Scanner.extend]
  | closing hp hs hname hspaces ht =>
    refine Or.inl (.closing hp ?_ hname hspaces ht)
    rw [hlong hs]
    simp [Scanner.extend]

/-- Every token of a text is found in the longer text, and only the text at its end may grow. -/
theorem next_extend {s t : Scanner} {token : Token} {ws : List Char} (hws : Spaces ws)
    (hne : ws ≠ []) (h : s.next = (.ok (some token), t)) :
    (s.extend ws).next = (.ok (some token), t.extend ws) ∨
      ∃ runs runs' u, token = .text runs ∧ t.next = (.ok none, t) ∧
        (s.extend ws).next = (.ok (some (.text runs')), u) ∧ u.next = (.ok none, u) ∧
        (runs' = runs ++ [" "] ∨ runs' = runs ∧ runs.getLast? = some " ") := by
  rcases (found_of_next h).extend ws with hfound | ⟨runs, rfl, hlast, hrest, hpending⟩
  · exact Or.inl (next_extend_of_found h hfound)
  · refine Or.inr ?_
    have hend : t.next = (.ok none, t) := next_of_nil hpending hrest
    rcases hlast.extend hws hne with hmore | ⟨hsame, hspace⟩
    · obtain ⟨u, hu, huend⟩ := hmore.next
      exact ⟨runs, _, u, rfl, hend, hu, huend, Or.inl rfl⟩
    · obtain ⟨u, hu, huend⟩ := hsame.next
      exact ⟨runs, _, u, rfl, hend, hu, huend, Or.inr ⟨rfl, hspace⟩⟩

/-- Where the text ends, there is the white space left. -/
theorem next_extend_end {s t : Scanner} {ws : List Char} (hws : Spaces ws) (hne : ws ≠ [])
    (h : s.next = (.ok none, t)) :
    ∃ u, (s.extend ws).next = (.ok (some (.text [" "])), u) ∧ u.next = (.ok none, u) := by
  obtain ⟨hp, hs⟩ := nil_of_next h
  have hrest : (s.extend ws).rest = ws := by
    show s.rest ++ ws = ws
    rw [hs, List.nil_append]
  have hlast : LastText (s.extend ws) [" "] := by
    refine ⟨hp, ?_, ?_, ?_⟩ <;> rw [hrest]
    · exact hne
    · exact isPlain_of_spaces hws
    · exact runsAs_spaces hws hne
  exact hlast.next

theorem isRun_of_next {s t : Scanner} {runs : List String}
    (h : s.next = (.ok (some (.text runs)), t)) : ∀ run ∈ runs, IsRun run := by
  have hfound := found_of_next h
  generalize htoken : Token.text runs = token at hfound
  cases hfound with
  | owed => cases htoken
  | text hp hs hne hcs hnext hruns ht =>
    cases htoken
    exact hruns.isRun
  | @entity name c hp hs hname ht =>
    cases htoken
    intro run hrun
    obtain rfl : run = c.toString := List.mem_singleton.1 hrun
    exact isRun_char c
  | opening => cases htoken
  | closing => cases htoken

end Scanner
end Markup
end Galley
