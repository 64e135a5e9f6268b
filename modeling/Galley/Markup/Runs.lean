import Galley.Text.Blank

/-
Cutting text into the runs that line breaking cares about.
-/

namespace Galley
namespace Markup

inductive CharClass where
  | hyphen
  | dash
  | space
  | word
  deriving Repr, DecidableEq

def isDash (c : Char) : Bool := c = '\u2014' || c = '\u2013'

def classOf (c : Char) : CharClass :=
  if c = '-' then .hyphen
  else if isDash c then .dash
  else if Text.isSpace c then .space
  else .word

/-- Maximal runs of characters of one class. -/
def segment : List Char → List (List Char)
  | [] => []
  | c :: cs =>
    match segment cs with
    | (d :: ds) :: runs =>
      if classOf c = classOf d then (c :: d :: ds) :: runs else [c] :: (d :: ds) :: runs
    | runs => [c] :: runs

/-- Text of a run.  White space counts as one space however long it is. -/
def runText : List Char → String
  | [] => ""
  | c :: cs => if classOf c = .space then " " else String.ofList (c :: cs)

def runsOf (cs : List Char) : List String := (segment cs).map runText

@[simp] theorem flatten_segment (cs : List Char) : (segment cs).flatten = cs := by
  fun_induction segment cs <;> simp_all

theorem ne_nil_of_mem_segment {cs run : List Char} (h : run ∈ segment cs) : run ≠ [] := by
  fun_induction segment cs generalizing run <;> grind

theorem length_runText_le {run : List Char} (h : run ≠ []) :
    max 1 (runText run).length ≤ run.length := by
  cases run with
  | nil => exact absurd rfl h
  | cons c cs =>
    simp only [runText]
    split <;> simp [String.length]

/-- Characters of a list of runs, an empty run counting as one. -/
def runsSize : List String → Nat
  | [] => 0
  | r :: rest => max 1 r.length + runsSize rest

theorem runsSize_runsOf_le (cs : List Char) : runsSize (runsOf cs) ≤ cs.length := by
  have key : ∀ l : List (List Char), (∀ r ∈ l, r ≠ []) →
      runsSize (l.map runText) ≤ l.flatten.length := by
    intro l
    induction l with
    | nil => simp [runsSize]
    | cons r rest ih =>
      intro h
      have hr := length_runText_le (h r (by simp))
      have hrest := ih fun x hx => h x (by simp [hx])
      simp only [runsSize, List.map_cons, List.flatten_cons, List.length_append] at *
      omega
  have := key (segment cs) fun r hr => ne_nil_of_mem_segment hr
  rwa [flatten_segment] at this

end Markup
end Galley
