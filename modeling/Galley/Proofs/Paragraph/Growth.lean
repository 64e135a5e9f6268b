import Galley.Proofs.Everywhere
import Galley.Proofs.Paragraph.Instruction
import Galley.Paragraph.Optimal

/-
What growing a line offers, one instruction at a time.

`Offers` says which breaks a line may end with and `RunsOut` when it goes on to the end of the
paragraph.  Each has one rule for going on past an instruction and the rules for stopping at it;
`mem_breaks_iff` and `toEnd_iff` say that `grow` finds exactly these.
-/

namespace Galley
namespace Paragraph

variable {α : Type} [Scalar α]

namespace Growth

/-- Penalty of the line once it holds the instruction. -/
def penaltyWith (limits : Limits α) (g : Growth α) (i : Instruction α) : α :=
  if Overflows limits.width g.running i then limits.penalty else g.penalty

/-- The line with the instruction on it. -/
def take (limits : Limits α) (g : Growth α) (i : Instruction α) : Growth α :=
  { running := g.running + i.solidWidth + i.looseWidth
    seenBreak := g.seenBreak || i.breakOpportunity
    penalty := g.penaltyWith limits i
    afterSpace := i.discardable }

/-- The line cannot hold the instruction, since it could have ended before. -/
def Stuck (limits : Limits α) (g : Growth α) (i : Instruction α) : Prop :=
  Overflows limits.width g.running i ∧ g.seenBreak = true

/-- Nothing more goes onto the line once it has the instruction. -/
def Full (limits : Limits α) (g : Growth α) (i : Instruction α) : Prop :=
  0 < g.penaltyWith limits i ∨
    limits.width + Scalar.epsilon < g.running + i.solidWidth + i.looseWidth

def badnessAt (limits : Limits α) (g : Growth α) (i : Instruction α) : α :=
  if 0 < g.penaltyWith limits i then g.penaltyWith limits i
  else Scalar.power (limits.width - (g.running + i.solidWidth)) 2

/-- The line may end with the instruction, as far as the instruction and its badness go. -/
def MayEnd (limits : Limits α) (g : Growth α) (i : Instruction α) : Prop :=
  (0 < g.penaltyWith limits i ∨ g.badnessAt limits i ≤ limits.tolerance) ∧
    ¬ (g.afterSpace = true ∧ i.discardable = true)

def breakAt (limits : Limits α) (place : Nat) (g : Growth α) (i : Instruction α)
    (rest : List (Instruction α)) : Break α :=
  { next := place + 1 + leadingSpaces rest
    badness := g.badnessAt limits i
    width := g.running + i.solidWidth }

instance (limits : Limits α) (g : Growth α) (i : Instruction α) :
    Decidable (g.Stuck limits i) := inferInstanceAs (Decidable (_ ∧ _))

instance (limits : Limits α) (g : Growth α) (i : Instruction α) :
    Decidable (g.Full limits i) := inferInstanceAs (Decidable (_ ∨ _))

instance (limits : Limits α) (g : Growth α) (i : Instruction α) :
    Decidable (g.MayEnd limits i) := inferInstanceAs (Decidable (_ ∧ _))

end Growth

theorem grow_cons (limits : Limits α) (place : Nat) (g : Growth α) (i : Instruction α)
    (rest : List (Instruction α)) :
    grow limits place g (i :: rest) =
      if g.Stuck limits i then { breaks := [], toEnd := none }
      else if i.breakOpportunity = false then grow limits (place + 1) (g.take limits i) rest
      else if showsMore rest = false then
        { breaks := [], toEnd := some (g.penaltyWith limits i) }
      else
        let here := if g.MayEnd limits i then [g.breakAt limits place i rest] else []
        if g.Full limits i then { breaks := here, toEnd := none }
        else
          let further := grow limits (place + 1) (g.take limits i) rest
          { further with breaks := here ++ further.breaks } := by
  have hover : (decide (0 < i.solidWidth) &&
      decide (limits.width + Scalar.epsilon < g.running + i.solidWidth)) =
      decide (Overflows limits.width g.running i) := by
    rw [Bool.eq_iff_iff, Bool.and_eq_true, decide_eq_true_eq, decide_eq_true_eq, decide_eq_true_eq]
    exact Iff.rfl
  have hstuck : (decide (Overflows limits.width g.running i) && g.seenBreak) =
      decide (g.Stuck limits i) := by
    rw [Bool.eq_iff_iff, Bool.and_eq_true, decide_eq_true_eq, decide_eq_true_eq]
    exact Iff.rfl
  have hpenalty : (if decide (Overflows limits.width g.running i) = true then limits.penalty
      else g.penalty) = g.penaltyWith limits i := by
    simp only [decide_eq_true_eq, Growth.penaltyWith]
  have hbadness : (if decide (0 < g.penaltyWith limits i) = true then g.penaltyWith limits i
      else Scalar.power (limits.width - (g.running + i.solidWidth)) 2) =
      g.badnessAt limits i := by
    simp only [decide_eq_true_eq, Growth.badnessAt]
  have hmay : ((decide (0 < g.penaltyWith limits i) ||
      decide (g.badnessAt limits i ≤ limits.tolerance)) && !(g.afterSpace && i.discardable)) =
      decide (g.MayEnd limits i) := by
    rw [Bool.eq_iff_iff, Bool.and_eq_true, Bool.or_eq_true, decide_eq_true_eq, decide_eq_true_eq,
      decide_eq_true_eq, Bool.not_eq_true', Bool.eq_false_iff, ne_eq, Bool.and_eq_true]
    exact Iff.rfl
  have hfull : (decide (0 < g.penaltyWith limits i) ||
      decide (limits.width + Scalar.epsilon < g.running + i.solidWidth + i.looseWidth)) =
      decide (g.Full limits i) := by
    rw [Bool.eq_iff_iff, Bool.or_eq_true, decide_eq_true_eq, decide_eq_true_eq, decide_eq_true_eq]
    exact Iff.rfl
  simp only [grow, hover, hstuck, hpenalty, hbadness, hmay, hfull]
  simp only [decide_eq_true_eq, Bool.not_eq_true']
  cases hb : i.breakOpportunity with
  | false => simp only [Growth.take, hb, Bool.or_false, reduceIte]
  | true =>
    simp only [Growth.take, Growth.breakAt, hb, Bool.or_true]
    rfl

/-- The line goes on past the instruction. -/
def Growth.GoesOn (limits : Limits α) (g : Growth α) (i : Instruction α)
    (rest : List (Instruction α)) : Prop :=
  ¬ g.Stuck limits i ∧
    (i.breakOpportunity = true → showsMore rest = true ∧ ¬ g.Full limits i)

theorem mem_breaks_cons (limits : Limits α) (place : Nat) (g : Growth α) (i : Instruction α)
    (rest : List (Instruction α)) (b : Break α) :
    b ∈ (grow limits place g (i :: rest)).breaks ↔
      (¬ g.Stuck limits i ∧ i.breakOpportunity = true ∧ showsMore rest = true ∧
        g.MayEnd limits i ∧ b = g.breakAt limits place i rest) ∨
      (g.GoesOn limits i rest ∧ b ∈ (grow limits (place + 1) (g.take limits i) rest).breaks) := by
  rw [grow_cons]
  unfold Growth.GoesOn
  by_cases hs : g.Stuck limits i
  · simp [hs]
  · cases hb : i.breakOpportunity with
    | false => simp [hs]
    | true =>
      cases hm : showsMore rest with
      | false => simp [hs]
      | true =>
        by_cases ht : g.MayEnd limits i <;> by_cases hf : g.Full limits i <;> simp [hs, ht, hf]

theorem toEnd_cons (limits : Limits α) (place : Nat) (g : Growth α) (i : Instruction α)
    (rest : List (Instruction α)) (c : α) :
    (grow limits place g (i :: rest)).toEnd = some c ↔
      (¬ g.Stuck limits i ∧ i.breakOpportunity = true ∧ showsMore rest = false ∧
        g.penaltyWith limits i = c) ∨
      (g.GoesOn limits i rest ∧
        (grow limits (place + 1) (g.take limits i) rest).toEnd = some c) := by
  rw [grow_cons]
  unfold Growth.GoesOn
  by_cases hs : g.Stuck limits i
  · simp [hs]
  · cases hb : i.breakOpportunity with
    | false => simp [hs]
    | true =>
      cases hm : showsMore rest with
      | false => simp [hs]
      | true => by_cases hf : g.Full limits i <;> simp [hs, hf]

/-! ## A line from its start -/

namespace Growth

/-- Where a line stands that holds these instructions. -/
def of (limits : Limits α) (line : List (Instruction α)) : Growth α :=
  line.foldl (fun g i => g.take limits i) .start

theorem of_concat (limits : Limits α) (line : List (Instruction α)) (i : Instruction α) :
    of limits (line ++ [i]) = (of limits line).take limits i := by
  simp [of]

theorem seenBreak_of (limits : Limits α) (line : List (Instruction α)) :
    (of limits line).seenBreak = line.any Instruction.breakOpportunity := by
  induction line using List.reverseRecOn with
  | nil => rfl
  | append_singleton line i ih =>
    rw [of_concat, List.any_append, ← ih]
    simp [take]

theorem afterSpace_of (limits : Limits α) (line : List (Instruction α)) :
    (of limits line).afterSpace = true ↔ ∃ j ∈ line.getLast?, j.discardable = true := by
  induction line using List.reverseRecOn with
  | nil => simp [of, start]
  | append_singleton line i ih =>
    rw [of_concat]
    simp [take]

/-- The line goes on past the instruction as far as the line itself is concerned. -/
def Passes (limits : Limits α) (g : Growth α) (i : Instruction α) (rest : List (Instruction α)) :
    Prop :=
  ¬ g.Stuck limits i ∧
    (i.breakOpportunity = true → showsMore rest = true → ¬ g.Full limits i)

theorem goesOn_iff (limits : Limits α) (g : Growth α) (i : Instruction α)
    (rest : List (Instruction α)) :
    g.GoesOn limits i rest ↔
      g.Passes limits i rest ∧ (i.breakOpportunity = true → showsMore rest = true) := by
  constructor
  · rintro ⟨hs, hb⟩
    exact ⟨⟨hs, fun h _ => (hb h).2⟩, fun h => (hb h).1⟩
  · rintro ⟨⟨hs, hf⟩, hm⟩
    exact ⟨hs, fun h => ⟨hm h, hf h (hm h)⟩⟩

/-- A line that holds `line` can end with the instruction. -/
structure Ends (limits : Limits α) (line : List (Instruction α)) (i : Instruction α)
    (rest : List (Instruction α)) : Prop where
  fits : ¬ (of limits line).Stuck limits i
  opportunity : i.breakOpportunity = true
  shows : showsMore rest = true
  may : (of limits line).MayEnd limits i

end Growth

/-- A line that holds `line` goes on past each of `items`, before `rest`. -/
def Scanned (limits : Limits α) (line items rest : List (Instruction α)) : Prop :=
  Everywhere (fun front i back => (Growth.of limits (line ++ front)).Passes limits i (back ++ rest))
    items

theorem scanned_cons_iff (limits : Limits α) (line items rest : List (Instruction α))
    (i : Instruction α) :
    Scanned limits line (i :: items) rest ↔
      (Growth.of limits line).Passes limits i (items ++ rest) ∧
        Scanned limits (line ++ [i]) items rest := by
  unfold Scanned
  rw [Everywhere.cons_iff]
  simp only [List.append_nil, List.append_assoc, List.singleton_append]

omit [Scalar α] in
theorem take_leadingSpaces (items : List (Instruction α)) :
    items.take (leadingSpaces items) = items.takeWhile Instruction.discardable :=
  (List.prefix_iff_eq_take.1 (List.takeWhile_prefix _)).symm

omit [Scalar α] in
theorem leadingSpaces_append {spaces more : List (Instruction α)} {next : Instruction α}
    (hs : ∀ j ∈ spaces, j.discardable = true) (hn : next.discardable = false) :
    leadingSpaces (spaces ++ next :: more) = spaces.length := by
  unfold leadingSpaces
  rw [List.takeWhile_append_of_pos hs, List.takeWhile_cons_of_neg (by rw [hn]; decide),
    List.append_nil]

/-- Where something is still to be shown, something comes behind the white space. -/
theorem exists_next_of_shows [Scalar.KeepsSign α] {rest : List (Instruction α)}
    (h : ∃ j ∈ rest, j.isVisible = true) :
    ∃ spaces next more, rest = spaces ++ next :: more ∧
      (∀ j ∈ spaces, j.discardable = true) ∧ next.discardable = false := by
  obtain ⟨v, hv, hvisible⟩ := h
  induction rest with
  | nil => cases hv
  | cons i rest ih =>
    cases hd : i.discardable with
    | false => exact ⟨[], i, rest, rfl, by simp, hd⟩
    | true =>
      have hvrest : v ∈ rest := by
        rcases List.mem_cons.1 hv with rfl | hv
        · rw [Instruction.not_discardable_of_isVisible hvisible] at hd
          cases hd
        · exact hv
      obtain ⟨spaces, next, more, rfl, hs, hn⟩ := ih hvrest
      refine ⟨i :: spaces, next, more, rfl, ?_, hn⟩
      intro j hj
      rcases List.mem_cons.1 hj with rfl | hj
      · exact hd
      · exact hs j hj

theorem showsMore_iff (items : List (Instruction α)) :
    showsMore items = true ↔ ∃ j ∈ items, j.isVisible = true := List.any_eq_true

theorem showsMore_append {front rest : List (Instruction α)} (h : showsMore rest = true) :
    showsMore (front ++ rest) = true := by
  unfold showsMore at *
  rw [List.any_append, h, Bool.or_true]

/-- The breaks of a line are its ends, each behind instructions that the line goes on past. -/
theorem mem_breaks_iff (limits : Limits α) (place : Nat) (line items : List (Instruction α))
    (b : Break α) :
    b ∈ (grow limits place (.of limits line) items).breaks ↔
      ∃ front i rest, items = front ++ i :: rest ∧ Scanned limits line front (i :: rest) ∧
        Growth.Ends limits (line ++ front) i rest ∧
        b = (Growth.of limits (line ++ front)).breakAt limits (place + front.length) i rest := by
  induction items generalizing place line with
  | nil => simp [grow]
  | cons x items ih =>
    have hline (front : List (Instruction α)) : line ++ x :: front = line ++ [x] ++ front := by
      simp
    have hplace (front : List (Instruction α)) :
        place + (x :: front).length = place + 1 + front.length := by
      rw [List.length_cons]
      omega
    rw [mem_breaks_cons, ← Growth.of_concat, ih, Growth.goesOn_iff]
    constructor
    · rintro (⟨hs, hb, hm, ht, rfl⟩ | ⟨⟨hp, -⟩, front, i, rest, rfl, hscan, hends, rfl⟩)
      · exact ⟨[], x, items, rfl, Everywhere.nil, by simpa using ⟨hs, hb, hm, ht⟩, by simp⟩
      · refine ⟨x :: front, i, rest, rfl, (scanned_cons_iff ..).2 ⟨hp, hscan⟩, ?_, ?_⟩
        · rw [hline front]
          exact hends
        · rw [hline front, hplace]
    · rintro ⟨front, i, rest, hitems, hscan, hends, rfl⟩
      -- the line ends here, or somewhere further on
      cases front with
      | nil =>
        cases hitems
        rw [List.append_nil] at hends ⊢
        exact Or.inl ⟨hends.fits, hends.opportunity, hends.shows, hends.may, rfl⟩
      | cons y front =>
        cases hitems
        obtain ⟨hp, hscan⟩ := (scanned_cons_iff ..).1 hscan
        have hshows : showsMore (front ++ ([i] ++ rest)) = true :=
          showsMore_append (showsMore_append hends.shows)
        rw [hline front] at hends
        rw [hline front, hplace]
        exact Or.inr ⟨⟨hp, fun _ => hshows⟩, front, i, rest, rfl, hscan, hends, rfl⟩

theorem scanned_of_blank (limits : Limits α) (line : List (Instruction α))
    {items : List (Instruction α)} (h : showsMore items = false) :
    Scanned limits line items [] ∧
      (Growth.of limits (line ++ items)).penalty = (Growth.of limits line).penalty := by
  induction items generalizing line with
  | nil => exact ⟨Everywhere.nil, by rw [List.append_nil]⟩
  | cons i items ih =>
    obtain ⟨hi, hitems⟩ : i.isVisible = false ∧ showsMore items = false := by
      simpa [showsMore] using h
    have ho : ¬ Overflows limits.width (Growth.of limits line).running i :=
      not_overflows_of_not_isVisible hi
    obtain ⟨hscan, hpenalty⟩ := ih (line ++ [i]) hitems
    constructor
    · rw [scanned_cons_iff, List.append_nil]
      exact ⟨⟨fun hs => ho hs.1, fun _ hm => by rw [hitems] at hm; cases hm⟩, hscan⟩
    · rw [List.append_cons, hpenalty, Growth.of_concat]
      exact if_neg ho

/-- A line goes on to the end where it goes on past everything. -/
theorem toEnd_iff (limits : Limits α) (place : Nat) (line items : List (Instruction α)) (c : α) :
    (grow limits place (.of limits line) items).toEnd = some c ↔
      Scanned limits line items [] ∧ (Growth.of limits (line ++ items)).penalty = c := by
  induction items generalizing place line with
  | nil =>
    rw [List.append_nil]
    simp [grow, Scanned, Everywhere.nil]
  | cons x items ih =>
    rw [toEnd_cons, ← Growth.of_concat, ih, Growth.goesOn_iff, scanned_cons_iff, List.append_nil,
      List.append_cons line x items]
    constructor
    · rintro (⟨hs, hb, hm, rfl⟩ | ⟨⟨hp, -⟩, hscan, hc⟩)
      · obtain ⟨hscan, hpenalty⟩ := scanned_of_blank limits (line ++ [x]) hm
        refine ⟨⟨⟨hs, fun _ hm' => ?_⟩, hscan⟩, ?_⟩
        · rw [hm] at hm'
          cases hm'
        · rw [hpenalty, Growth.of_concat]
          rfl
      · exact ⟨⟨hp, hscan⟩, hc⟩
    · rintro ⟨⟨hp, hscan⟩, hc⟩
      -- growing stops early where only blank things are left, which change nothing
      by_cases hlast : x.breakOpportunity = true ∧ showsMore items = false
      · refine Or.inl ⟨hp.1, hlast.1, hlast.2, ?_⟩
        rw [← hc, (scanned_of_blank limits (line ++ [x]) hlast.2).2, Growth.of_concat]
        rfl
      · refine Or.inr ⟨⟨hp, fun hb => ?_⟩, hscan, hc⟩
        rw [← Bool.not_eq_false]
        exact fun hm => hlast ⟨hb, hm⟩

/-! ## In exact arithmetic -/

theorem Growth.running_of (limits : Limits Rat) (line : List (Instruction Rat)) :
    (Growth.of limits line).running = totalWidth line := by
  induction line using List.reverseRecOn with
  | nil => rfl
  | append_singleton line i ih =>
    rw [of_concat, totalWidth_concat, ← ih]
    exact Instruction.solidWidth_add_looseWidth _ i

/-- What shows on a line fits, or no break comes before it. -/
theorem Growth.not_stuck_of_iff (limits : Limits Rat) (line : List (Instruction Rat))
    (i : Instruction Rat) :
    ¬ (Growth.of limits line).Stuck limits i ↔
      (i.isVisible = true → totalWidth (line ++ [i]) ≤ limits.width + Scalar.epsilon ∨
        ∀ j ∈ line, j.breakOpportunity = false) := by
  unfold Stuck
  rw [running_of, seenBreak_of, overflows_iff, not_and, List.any_eq_true]
  constructor
  · intro h hi
    by_cases hfits : totalWidth (line ++ [i]) ≤ limits.width + Scalar.epsilon
    · exact Or.inl hfits
    · have hseen := h ⟨hi, not_le.1 hfits⟩
      exact Or.inr fun j hj => Bool.eq_false_iff.2 fun hb => hseen ⟨j, hj, hb⟩
  · rintro h ⟨hi, hwide⟩ ⟨j, hj, hb⟩
    rcases h hi with hfits | hnone
    · exact absurd hwide (not_lt.2 hfits)
    · rw [hnone j hj] at hb
      cases hb

end Paragraph
end Galley
