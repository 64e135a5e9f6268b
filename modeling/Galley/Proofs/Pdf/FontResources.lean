import Galley.Font.Catalog
import Galley.Proofs.Pdf.Sink
import Galley.Proofs.Pdf.Words

/-
Which requests share a font resource.

A canvas tells fonts apart by their keys alone: the name of the face, and its subset if it is not
the first.  The program that a request brings along counts only if its key is new.  So two requests
get the same resource exactly if their keys agree, and the document shows the program of the first
of them (`Canvas.answers_share_iff`).
-/

namespace Galley
namespace Pdf

open Font

namespace FontRequest

def key (r : FontRequest) : String := Canvas.fontKey r.base r.subset

/-- The same face, the same subset of it and the same program. -/
def Agrees (r s : FontRequest) : Prop :=
  r.base = s.base ∧ r.subset = s.subset ∧
    r.embedded.map EmbeddedFont.program = s.embedded.map EmbeddedFont.program

/-- The name of the face of `r` reads like a subset, and it is that of `s`. -/
def Spells (r s : FontRequest) : Prop :=
  r.subset = 0 ∧ s.subset ≠ 0 ∧ r.base = s.base ++ "+" ++ toString s.subset

/-- A canvas does not tell these requests apart. -/
def SameKey (r s : FontRequest) : Prop :=
  (r.base = s.base ∧ r.subset = s.subset) ∨ r.Spells s ∨ s.Spells r

theorem toList_numbered (base : String) (n : Nat) :
    (base ++ "+" ++ toString n).toList = base.toList ++ '+' :: Nat.toDigits 10 n := by
  rw [String.toList_append, String.toList_append, Nat.toString_eq_ofList_toDigits,
    String.toList_ofList (l := Nat.toDigits 10 n), List.append_assoc]
  rfl

/-- The number of a subset is all that follows the last plus sign. -/
theorem numbered_inj {base base' : String} {n n' : Nat}
    (h : base ++ "+" ++ toString n = base' ++ "+" ++ toString n') : base = base' ∧ n = n' := by
  have hlast (k : Nat) (rest : List Char) :
      ((Nat.toDigits 10 k).reverse ++ '+' :: rest).takeWhile (· ≠ '+') =
        (Nat.toDigits 10 k).reverse := by
    have hdigits : ∀ c ∈ (Nat.toDigits 10 k).reverse, decide (c ≠ '+') = true := by
      intro c hc
      have hdigit := isDigit_toDigits c (List.mem_reverse.1 hc)
      rw [decide_eq_true_eq]
      rintro rfl
      exact absurd hdigit (by decide)
    rw [List.takeWhile_append_of_pos hdigits, List.takeWhile_cons_of_neg (by decide),
      List.append_nil]
  have hlists := congrArg String.toList h
  rw [toList_numbered, toList_numbered] at hlists
  have hreversed := congrArg List.reverse hlists
  simp only [List.reverse_append, List.reverse_cons, List.append_assoc,
    List.singleton_append] at hreversed
  have hdigits := congrArg (List.takeWhile (· ≠ '+')) hreversed
  rw [hlast, hlast, List.reverse_inj] at hdigits
  have hn : n = n' := by
    rw [← Nat.ofDigitChars_ten_toDigits (n := n), hdigits, Nat.ofDigitChars_ten_toDigits]
  subst hn
  exact ⟨String.toList_inj.1 (List.append_cancel_right hlists), rfl⟩

theorem key_eq_iff (r s : FontRequest) : r.key = s.key ↔ r.SameKey s := by
  unfold key Canvas.fontKey SameKey Spells
  by_cases hr : r.subset = 0
  · by_cases hs : s.subset = 0
    · rw [if_pos hr, if_pos hs]
      constructor
      · exact fun h => .inl ⟨h, hr.trans hs.symm⟩
      · rintro (⟨h, -⟩ | ⟨-, hne, -⟩ | ⟨-, hne, -⟩)
        · exact h
        · exact absurd hs hne
        · exact absurd hr hne
    · rw [if_pos hr, if_neg hs]
      constructor
      · exact fun h => .inr (.inl ⟨hr, hs, h⟩)
      · rintro (⟨-, h⟩ | ⟨-, -, h⟩ | ⟨h, -, -⟩)
        · exact absurd (h.symm.trans hr) hs
        · exact h
        · exact absurd h hs
  · by_cases hs : s.subset = 0
    · rw [if_neg hr, if_pos hs]
      constructor
      · exact fun h => .inr (.inr ⟨hs, hr, h.symm⟩)
      · rintro (⟨-, h⟩ | ⟨h, -, -⟩ | ⟨-, -, h⟩)
        · exact absurd (h.trans hs) hr
        · exact absurd h hr
        · exact h.symm
    · rw [if_neg hr, if_neg hs]
      constructor
      · exact fun h => .inl (numbered_inj h)
      · rintro (⟨hbase, hsubset⟩ | ⟨h, -, -⟩ | ⟨h, -, -⟩)
        · rw [hbase, hsubset]
        · exact absurd h hr
        · exact absurd h hs

end FontRequest

/-! ## Names of resources -/

namespace Canvas

theorem resourceIndex?_resourceName (i : Nat) : resourceIndex? (resourceName i) = some i := by
  have hnumber : Decimal.natural? (Nat.toDigits 10 (i + 1)) = some (i + 1) := by
    have hfirst : '+' ∉ Nat.toDigits 10 (i + 1) := by
      intro hmem
      exact absurd (isDigit_toDigits _ hmem) (by decide)
    unfold Decimal.natural?
    split
    · next ds heq =>
      rw [heq] at hfirst
      exact absurd (List.mem_cons_self ..) hfirst
    · exact digits?_toDigits (i + 1)
  have hname : (resourceName i).toList = 'F' :: Nat.toDigits 10 (i + 1) := by
    rw [resourceName, String.toList_append, Nat.toString_eq_ofList_toDigits,
      String.toList_ofList (l := Nat.toDigits 10 (i + 1))]
    rfl
  unfold resourceIndex?
  rw [hname]
  simp only [hnumber]

theorem resourceName_inj {i j : Nat} (h : resourceName i = resourceName j) : i = j := by
  have hindex := congrArg resourceIndex? h
  rwa [resourceIndex?_resourceName, resourceIndex?_resourceName, Option.some_inj] at hindex

variable {α : Type}

/-- The program that a document shows for a resource. -/
def programOf (c : Canvas α) (resource : String) : Option (Option EmbeddedFont) :=
  (resourceIndex? resource).bind fun index => (c.fonts[index]?).map CanvasFont.embedded

theorem programOf_resourceName (c : Canvas α) (i : Nat) :
    c.programOf (resourceName i) = (c.faces[i]?).map Prod.snd := by
  rw [programOf, resourceIndex?_resourceName, Option.bind_some, faces, List.getElem?_map,
    Option.map_map]
  rfl

variable [Scalar α]

/-- Fonts are only ever added. -/
theorem prefix_perform (c : Canvas α) (call : SinkCall α) :
    c.faces <+: (c.perform call).faces := by
  cases call with
  | font r =>
    show c.faces <+: (c.fontResource r.base r.subset r.embedded).2.faces
    rw [faces_fontResource]
    split
    · exact List.prefix_rfl
    · exact List.prefix_append ..
  | glyphs resource text =>
    show c.faces <+: (c.useGlyphs resource text).faces
    rw [faces_useGlyphs]
  | _ => exact List.prefix_rfl

theorem prefix_run (c : Canvas α) (calls : List (SinkCall α)) :
    c.faces <+: (c.run calls).faces := by
  induction calls generalizing c with
  | nil => exact List.prefix_rfl
  | cons call calls ih => exact (c.prefix_perform call).trans (ih _)

/-! ## Answers -/

/-- The requests for fonts among some calls, each with the resource that it is answered. -/
def answers (c : Canvas α) : List (SinkCall α) → List (FontRequest × String)
  | [] => []
  | .font r :: calls =>
    (r, (c.fontResource r.base r.subset r.embedded).1) :: (c.perform (.font r)).answers calls
  | call :: calls => (c.perform call).answers calls

theorem answer_name {c : Canvas α} {calls : List (SinkCall α)} :
    ∀ x ∈ c.answers calls, x.1.key ∈ (c.run calls).fontKeys ∧
      x.2 = resourceName ((c.run calls).fontKeys.idxOf x.1.key) := by
  -- on the calls; a font that is entered keeps its place from then on
  induction calls generalizing c with
  | nil => simp [answers]
  | cons call calls ih =>
    cases call with
    | font r =>
      refine List.forall_mem_cons.2 ⟨?_, ih⟩
      have hprefix : (c.fontResource r.base r.subset r.embedded).2.fontKeys <+:
          (c.run (.font r :: calls)).fontKeys := by
        rw [fontKeys_eq, fontKeys_eq]
        exact ((c.perform (.font r)).prefix_run calls).map Prod.fst
      constructor
      · refine hprefix.subset ?_
        rw [fontKeys_fontResource]
        split
        · assumption
        · exact List.mem_append_right _ (List.mem_singleton_self _)
      · rw [fontResource_name]
        exact congrArg resourceName (idxOf_of_entered c r.base r.subset r.embedded hprefix).symm
    | _ => exact ih

/-- Two requests have the same resource exactly if their keys agree. -/
theorem answers_eq_iff_key {c : Canvas α} {calls : List (SinkCall α)} {x y : FontRequest × String}
    (hx : x ∈ c.answers calls) (hy : y ∈ c.answers calls) : x.2 = y.2 ↔ x.1.key = y.1.key := by
  obtain ⟨hmem, hxname⟩ := answer_name x hx
  obtain ⟨-, hyname⟩ := answer_name y hy
  rw [hxname, hyname]
  constructor
  · exact fun h => (List.idxOf_inj hmem).1 (resourceName_inj h)
  · intro h
    rw [h]

/-- A font that is new to a canvas has its program from the first request that is answered with its
resource. -/
theorem programOf_answer {c : Canvas α} {calls : List (SinkCall α)} :
    ∀ x ∈ c.answers calls, x.1.key ∉ c.fontKeys →
      (c.run calls).programOf x.2 =
        ((c.answers calls).find? fun y => y.2 = x.2).map fun y => y.1.embedded := by
  induction calls generalizing c with
  | nil => simp [answers]
  | cons call calls ih =>
    cases call with
    | font r =>
      intro x hx hnew
      have hhead : (r, (c.fontResource r.base r.subset r.embedded).1) ∈
          c.answers (.font r :: calls) := List.mem_cons_self ..
      have hkey := answers_eq_iff_key hhead hx
      by_cases hname : (c.fontResource r.base r.subset r.embedded).1 = x.2
      · have hr : fontKey r.base r.subset ∉ c.fontKeys := by
          rw [← hkey.1 hname] at hnew
          exact hnew
        have hentered : (c.perform (.font r)).faces =
            c.faces ++ [(fontKey r.base r.subset, r.embedded)] := by
          rw [perform, faces_fontResource, if_neg hr]
        obtain ⟨later, hlater⟩ := (c.perform (.font r)).prefix_run calls
        rw [answers, List.find?_cons_of_pos (by simpa using hname), ← hname, fontResource_name,
          List.idxOf_eq_length hr, programOf_resourceName, fontKeys_eq, List.length_map, run_cons,
          ← hlater, hentered, List.append_assoc,
          List.getElem?_append_right (Nat.le_refl _), Nat.sub_self]
        rfl
      · have hne : x.1.key ≠ fontKey r.base r.subset := fun h => hname (hkey.2 h.symm)
        have hlater : x ∈ (c.perform (.font r)).answers calls := by
          rcases List.mem_cons.1 hx with rfl | hx
          · exact absurd rfl hname
          · exact hx
        have hstillNew : x.1.key ∉ (c.perform (.font r)).fontKeys := by
          rw [perform, fontKeys_fontResource]
          split
          · exact hnew
          · simpa using ⟨hnew, hne⟩
        rw [answers, List.find?_cons_of_neg (by simpa using hname), run_cons]
        exact ih x hlater hstillNew
    | glyphs resource text =>
      intro x hx hnew
      refine ih x hx ?_
      rwa [perform, fontKeys_useGlyphs]
    | _ => exact ih

/-- Two requests to a new canvas are answered with the same resource exactly if their keys agree.  So
resources tell two requests apart as they should exactly unless these have one key and do not agree.
A resource shows the program of the first request that it was the answer to. -/
theorem answers_share_iff (width height margin : α) (calls : List (SinkCall α)) :
    ∀ x ∈ (ofSize width height margin).answers calls,
      ∀ y ∈ (ofSize width height margin).answers calls,
        (x.2 = y.2 ↔ x.1.SameKey y.1) ∧
        ((x.2 = y.2 ↔ x.1.Agrees y.1) ↔ (x.1.SameKey y.1 → x.1.Agrees y.1)) ∧
        ((ofSize width height margin).run calls).programOf x.2 =
          (((ofSize width height margin).answers calls).find? fun z => z.2 = x.2).map
            fun z => z.1.embedded := by
  intro x hx y hy
  have hsame : x.2 = y.2 ↔ x.1.SameKey y.1 :=
    (answers_eq_iff_key hx hy).trans (FontRequest.key_eq_iff x.1 y.1)
  have hagrees : x.1.Agrees y.1 → x.1.SameKey y.1 := fun h => .inl ⟨h.1, h.2.1⟩
  refine ⟨hsame, ?_, programOf_answer x hx (by simp [fontKeys, ofSize])⟩
  rw [hsame]
  exact ⟨fun h => h.1, fun h => ⟨h, hagrees⟩⟩

namespace Sample

/-- The request for a face that is registered for a family. -/
def request (family : String) (program : ByteArray) : FontRequest :=
  let style := { bold := false, italic := false }
  let name := Catalog.documentName family style
  { base := name, subset := 0, embedded := some { name, program, style } }

def spaced : FontRequest := request "My Font" ⟨#[0]⟩

def unspaced : FontRequest := request "MyFont" ⟨#[0, 1]⟩

def canvas : Canvas Rat := ofSize 100 100 10

def calls : List (SinkCall Rat) := [.font spaced, .font unspaced]

theorem answers_calls : canvas.answers calls = [(spaced, "F1"), (unspaced, "F1")] := by
  have hspaced : (canvas.fontResource spaced.base spaced.subset spaced.embedded).1 = "F1" := by
    decide +kernel
  have hunspaced : ((canvas.perform (.font spaced)).fontResource unspaced.base unspaced.subset
      unspaced.embedded).1 = "F1" := by
    decide +kernel
  rw [calls, answers, answers, answers, hspaced, hunspaced]

theorem answers_share_calls :
    (spaced, "F1") ∈ canvas.answers calls ∧ (unspaced, "F1") ∈ canvas.answers calls ∧
      spaced.SameKey unspaced ∧ (canvas.run calls).programOf "F1" = some spaced.embedded := by
  have hspaced : (spaced, "F1") ∈ canvas.answers calls := by simp [answers_calls]
  have hunspaced : (unspaced, "F1") ∈ canvas.answers calls := by simp [answers_calls]
  obtain ⟨hsame, -, hprogram⟩ := answers_share_iff 100 100 10 calls _ hspaced _ hunspaced
  have hfirst : (canvas.answers calls).find? (fun z => z.2 = "F1") = some (spaced, "F1") := by
    rw [answers_calls]
    rfl
  refine ⟨hspaced, hunspaced, hsame.1 rfl, hprogram.trans ?_⟩
  exact congrArg (Option.map fun z => z.1.embedded) hfirst

/-- Two families with different programs share a resource, because their names come down to one. -/
theorem resource_shared_by_programs :
    canvas.answers calls = [(spaced, "F1"), (unspaced, "F1")] ∧ ¬ spaced.Agrees unspaced := by
  refine ⟨answers_calls, fun h => ?_⟩
  have hsize := congrArg (Option.map ByteArray.size) h.2.2
  exact absurd hsize (by decide)

end Sample

end Canvas
end Pdf
end Galley
