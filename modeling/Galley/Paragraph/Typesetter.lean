import Galley.Paragraph.Optimal
import Galley.Paragraph.Parser

/-
Hands out the lines of a text, one at a time or in batches.
-/

namespace Galley
namespace Paragraph

inductive Algorithm where
  | greedy
  | optimal
  deriving Repr, DecidableEq, Inhabited

namespace Algorithm

def words : List (String × Algorithm) := [("greedy", greedy), ("optimal", optimal)]

def name : Algorithm → String
  | greedy => "greedy"
  | optimal => "optimal"

end Algorithm

structure Typesetter (α : Type) where
  parser : Parser α
  algorithm : Algorithm
  optimal : OptimalConfig α
  /-- Fill the last line of each paragraph when breaking optimally. -/
  justify : Bool
  /-- Lines that are finished but not handed out. -/
  queued : List (Line α) := []

/-- Instructions up to and with the next forced break. -/
def takeParagraph {σ α : Type} [Source σ α] (s : σ) :
    Except Error (List (Instruction α)) × σ :=
  match h : Source.next s with
  | (.error e, t) => (.error e, t)
  | (.ok none, t) => (.ok [], t)
  | (.ok (some i), t) =>
    have : Source.remaining t < Source.remaining s := Source.remaining_lt h
    if i.isForcedBreak then (.ok [i], t)
    else
      let (more, u) := takeParagraph t
      (more.map (i :: ·), u)
termination_by Source.remaining s

theorem remaining_takeParagraph {σ α : Type} [Source σ α] (s : σ) :
    Source.remaining (takeParagraph s).2 ≤ Source.remaining s ∧
      ∀ i items, (takeParagraph s).1 = .ok (i :: items) →
        Source.remaining (takeParagraph s).2 < Source.remaining s := by
  fun_induction takeParagraph s with
  | case1 s e t h => exact ⟨Source.remaining_le h, by simp⟩
  | case2 s t h => exact ⟨Source.remaining_le h, by simp⟩
  | case3 s i t h hlt _ => exact ⟨Nat.le_of_lt hlt, fun _ _ _ => hlt⟩
  | case4 s i t h hlt _ more u hu ih =>
    rw [hu] at ih
    have := ih.1
    exact ⟨by dsimp only at *; omega, fun _ _ _ => by dsimp only at *; omega⟩

/-- Only at the end is there no paragraph. -/
theorem next_of_takeParagraph_nil {σ α : Type} [Source σ α] {s t : σ}
    (h : takeParagraph s = (.ok [], t)) : Source.next s = (.ok none, t) := by
  revert h
  fun_cases takeParagraph s with
  | case1 => simp
  | case2 u hs =>
    intro h
    cases h
    exact hs
  | case3 => simp
  | case4 i u hs _ _ more v _ =>
    intro h
    cases more <;> simp [Except.map] at h

namespace Typesetter

variable {α : Type} [Scalar α]

/-- Every line has been handed out. -/
def done (b : Typesetter α) : Except Error Bool × Typesetter α :=
  if b.queued.isEmpty then
    let (r, parser) := b.parser.atEos
    (r, { b with parser })
  else (.ok false, b)

def nextLine (b : Typesetter α) (width : α) : Except Error (Option (Line α)) × Typesetter α :=
  match b.queued with
  | line :: queued => (.ok (some line), { b with queued })
  | [] =>
    match b.algorithm with
    | .greedy =>
      let (r, parser) := greedyLine width b.parser
      (r, { b with parser })
    | .optimal =>
      match takeParagraph b.parser with
      | (.error e, parser) => (.error e, { b with parser })
      | (.ok items, parser) =>
        match breakLines width b.optimal b.justify parser.setup.fonts items with
        | [] => (.ok none, { b with parser })
        | line :: queued => (.ok (some line), { b with parser, queued })

/-- Returns a line, which is then the next to be handed out. -/
def unshift (b : Typesetter α) (line : Line α) : Typesetter α :=
  { b with queued := line :: b.queued }

/-! ## Handing out lines ends -/

/-- What is left of a typesetter: unread text first, then finished lines. -/
def size (b : Typesetter α) : Nat × Nat := (b.parser.remaining, b.queued.length)

/-- Less is left in `c` than in `b`. -/
def Less (c b : Typesetter α) : Prop :=
  c.parser.remaining < b.parser.remaining ∨
    c.parser.remaining = b.parser.remaining ∧ c.queued.length < b.queued.length

omit [Scalar α] in
theorem lex_of_less {c b : Typesetter α} (h : Less c b) :
    Prod.Lex (· < ·) (· < ·) c.size b.size := by
  rcases h with h | ⟨he, hl⟩
  · exact Prod.Lex.left _ _ h
  · show Prod.Lex _ _ (c.parser.remaining, c.queued.length) (b.parser.remaining, b.queued.length)
    rw [he]
    exact Prod.Lex.right _ hl

theorem breakLines_nil (width : α) (config : OptimalConfig α) (justify : Bool)
    (fonts : Font.FontService α) : breakLines width config justify fonts [] = [] := rfl

theorem less_nextLine {b c : Typesetter α} {width : α} {line : Line α}
    (h : b.nextLine width = (.ok (some line), c)) : Less c b := by
  unfold nextLine at h
  split at h
  · next queued hq =>
    cases h
    exact Or.inr ⟨rfl, by simp [hq]⟩
  · next hq =>
    split at h
    · cases hg : greedyLine width b.parser with
      | mk r parser =>
        rw [hg] at h
        cases h
        exact Or.inl (remaining_greedyLine_lt hg)
    · split at h
      · cases h
      · next items parser hp =>
        split at h
        · cases h
        · next first queued hl =>
          cases h
          cases items with
          | nil => simp [breakLines_nil] at hl
          | cons i rest =>
            have := (remaining_takeParagraph b.parser).2 i rest (by rw [hp])
            rw [hp] at this
            exact Or.inl this

/-- All lines that are left. -/
def lines (b : Typesetter α) (width : α) : Except Error (List (Line α)) × Typesetter α :=
  match h : b.nextLine width with
  | (.error e, c) => (.error e, c)
  | (.ok none, c) => (.ok [], c)
  | (.ok (some line), c) =>
    have := lex_of_less (less_nextLine h)
    let (more, c) := c.lines width
    (more.map (line :: ·), c)
termination_by b.size
decreasing_by assumption

/-- Lines that fit into what is left of `height`, after `used` of it has been taken.  A line with
a page break ends the batch, and a line that does not fit is handed out next time. -/
def fillMore (width height spacing used : α) (b : Typesetter α) :
    Except Error (List (Line α)) × Typesetter α :=
  match h : b.nextLine width with
  | (.error e, c) => (.error e, c)
  | (.ok none, c) => (.ok [], c)
  | (.ok (some line), c) =>
    have := lex_of_less (less_nextLine h)
    if height + Scalar.epsilon < used + (line.height + spacing) then (.ok [], c.unshift line)
    else if line.pageBreak then (.ok [line], c)
    else
      let (more, c) := fillMore width height spacing (used + (line.height + spacing)) c
      (more.map (line :: ·), c)
termination_by b.size
decreasing_by assumption

/-- A batch of lines for a box.  The first line is taken even if it does not fit, so that a
caller always gets on. -/
def fill (b : Typesetter α) (width height spacing : α) :
    Except Error (List (Line α)) × Typesetter α :=
  match b.nextLine width with
  | (.error e, c) => (.error e, c)
  | (.ok none, c) => (.ok [], c)
  | (.ok (some line), c) =>
    if line.pageBreak then (.ok [line], c)
    else
      let (more, c) := fillMore width height spacing (0 + (line.height + spacing)) c
      (more.map (line :: ·), c)

/-! ## Filling a box uses up what it hands out -/

/-- Not more is left in `c` than in `b`. -/
def NotMore (c b : Typesetter α) : Prop :=
  c.parser.remaining < b.parser.remaining ∨
    c.parser.remaining = b.parser.remaining ∧ c.queued.length ≤ b.queued.length

omit [Scalar α] in
theorem NotMore.refl (b : Typesetter α) : NotMore b b := Or.inr ⟨rfl, Nat.le_refl _⟩

omit [Scalar α] in
theorem NotMore.trans {a b c : Typesetter α} (h : NotMore a b) (k : NotMore b c) :
    NotMore a c := by
  unfold NotMore at *
  omega

omit [Scalar α] in
theorem Less.notMore {a b : Typesetter α} (h : Less a b) : NotMore a b := by
  unfold NotMore
  unfold Less at h
  omega

omit [Scalar α] in
theorem Less.trans_notMore {a b c : Typesetter α} (h : Less a b) (k : NotMore b c) : Less a c := by
  unfold Less NotMore at *
  omega

omit [Scalar α] in
theorem NotMore.trans_less {a b c : Typesetter α} (h : NotMore a b) (k : Less b c) : Less a c := by
  unfold Less NotMore at *
  omega

theorem notMore_nextLine (b : Typesetter α) (width : α) : NotMore (b.nextLine width).2 b := by
  by_cases hs : ∃ line, (b.nextLine width).1 = .ok (some line)
  · obtain ⟨line, hl⟩ := hs
    exact (less_nextLine (Prod.ext hl rfl)).notMore
  · revert hs
    unfold nextLine
    split
    · intro hs
      exact absurd ⟨_, rfl⟩ hs
    · cases b.algorithm with
      | greedy =>
        intro _
        have := remaining_greedyLine_le width b.parser
        change (greedyLine width b.parser).2.remaining ≤ b.parser.remaining at this
        unfold NotMore
        dsimp only
        omega
      | optimal =>
        dsimp only
        have hp := (remaining_takeParagraph b.parser).1
        change (takeParagraph b.parser).2.remaining ≤ b.parser.remaining at hp
        split
        · next h =>
          rw [h] at hp
          intro _
          unfold NotMore
          dsimp only at *
          omega
        · next items parser h =>
          rw [h] at hp
          dsimp only at hp ⊢
          split
          · intro _
            unfold NotMore
            dsimp only
            omega
          · intro hs
            exact absurd ⟨_, rfl⟩ hs

theorem notMore_done (b : Typesetter α) : NotMore b.done.2 b := by
  unfold done
  split
  · have := Parser.remaining_peek_le b.parser
    show NotMore { b with parser := b.parser.peek.2 } b
    unfold NotMore
    dsimp only
    omega
  · exact NotMore.refl b

omit [Scalar α] in
/-- A line that is returned right away puts a typesetter back to no more than it was. -/
theorem notMore_unshift {b c : Typesetter α} (h : Less c b) (line : Line α) :
    NotMore (c.unshift line) b := by
  unfold Less at h
  unfold NotMore unshift
  simp only [List.length_cons]
  omega

theorem notMore_fillMore (width height spacing used : α) (b : Typesetter α) :
    NotMore (fillMore width height spacing used b).2 b := by
  fun_induction fillMore width height spacing used b with
  | case1 used b e c h =>
    have := notMore_nextLine b width
    rwa [h] at this
  | case2 used b c h =>
    have := notMore_nextLine b width
    rwa [h] at this
  | case3 used b line c h _ _ => exact notMore_unshift (less_nextLine h) line
  | case4 used b line c h _ _ _ => exact (less_nextLine h).notMore
  | case5 used b line c h _ _ _ more d hd ih =>
    rw [hd] at ih
    exact ih.trans (less_nextLine h).notMore

/-- A batch that holds a line has used up something. -/
theorem less_fill {b c : Typesetter α} {width height spacing : α} {line : Line α}
    {lines : List (Line α)} (h : b.fill width height spacing = (.ok (line :: lines), c)) :
    Less c b := by
  unfold fill at h
  split at h
  · cases h
  · cases h
  · next first d hd =>
    split at h
    · cases h
      exact less_nextLine hd
    · have hm := notMore_fillMore width height spacing (0 + (first.height + spacing)) d
      cases hf : fillMore width height spacing (0 + (first.height + spacing)) d with
      | mk more u =>
        rw [hf] at h hm
        obtain rfl : u = c := congrArg Prod.snd h
        exact hm.trans_less (less_nextLine hd)

/-- A line is finished, or something is left to read. -/
def Pending (b : Typesetter α) : Prop :=
  b.queued ≠ [] ∨ ∃ i p, Source.next b.parser = (.ok (some i), p)

theorem pending_of_done {b c : Typesetter α} (h : b.done = (.ok false, c)) : c.Pending := by
  unfold done at h
  split at h
  · have hp : Parser.atEos b.parser = (.ok false, c.parser) := by
      cases ha : Parser.atEos b.parser with
      | mk r p =>
        rw [ha] at h
        cases h
        rfl
    unfold Parser.atEos at hp
    cases hk : b.parser.peek with
    | mk r p =>
      rw [hk] at hp
      cases r with
      | error e => cases hp
      | ok o =>
        cases o with
        | none => simp [Except.map] at hp
        | some i =>
          obtain rfl : p = c.parser := congrArg Prod.snd hp
          exact Or.inr ⟨i, Parser.next_peek hk⟩
  · next hq =>
    cases h
    exact Or.inl (by simpa using hq)

/-- Asking for a line uses up something as long as there is something. -/
theorem less_nextLine_of_pending {b c : Typesetter α} {width : α} {r : Option (Line α)}
    (hb : b.Pending) (h : b.nextLine width = (.ok r, c)) : Less c b := by
  cases r with
  | some line => exact less_nextLine h
  | none =>
    unfold nextLine at h
    split at h
    · cases h
    · next hq =>
      obtain ⟨i, p, hi⟩ : ∃ i p, Source.next b.parser = (.ok (some i), p) :=
        hb.resolve_left (by simp [hq])
      split at h
      · cases hg : greedyLine width b.parser with
        | mk r u =>
          rw [hg] at h
          cases h
          exact Or.inl (remaining_greedyLine_of_next hi hg)
      · split at h
        · cases h
        · next items q hp =>
          have hlt : Source.remaining q < Source.remaining b.parser := by
            cases items with
            | cons j rest =>
              have := (remaining_takeParagraph b.parser).2 j rest (by rw [hp])
              rwa [hp] at this
            | nil => simp [next_of_takeParagraph_nil hp] at hi
          split at h
          · cases h
            exact Or.inl hlt
          · cases h

/-- Filling a box uses up something as long as there is something. -/
theorem less_fill_of_pending {b c : Typesetter α} {width height spacing : α}
    {lines : List (Line α)} (hb : b.Pending)
    (h : b.fill width height spacing = (.ok lines, c)) : Less c b := by
  cases lines with
  | cons line lines => exact less_fill h
  | nil =>
    unfold fill at h
    split at h
    · cases h
    · next d hd =>
      cases h
      exact less_nextLine_of_pending hb hd
    · next first d hd =>
      split at h
      · cases h
      · cases hf : fillMore width height spacing (0 + (first.height + spacing)) d with
        | mk more u =>
          rw [hf] at h
          cases more <;> simp [Except.map] at h

end Typesetter
end Paragraph
end Galley
