import Galley.Proofs.Markup.Progress

/-
Where tokens are in a text.

A scanner hands out each token at a byte offset, which is what errors name.  `Scans` gives the
tokens of a text with their places, and each of them does stand there (`Scans.tokenAt_ofText`): what
a scanner reads is what its place moves by.
-/

namespace Galley
namespace Markup

/-- The tokens of a text, each with the byte offset at which it is found. -/
inductive Scans : Scanner → List (Token × Nat) → Prop where
  | nil {s t : Scanner} (h : s.next = (.ok none, t)) : Scans s []
  | cons {s t : Scanner} {token : Token} {tokens : List (Token × Nat)}
      (h : s.next = (.ok (some token), t)) (hmore : Scans t tokens) :
      Scans s ((token, s.position) :: tokens)

/-- The token is found in the text behind this many bytes. -/
def TokenAt (text : String) (position : Nat) (token : Token) : Prop :=
  ∃ front s t, text.toList = front ++ s.rest ∧ byteLength front = position ∧
    Scanner.Found s t token

theorem Scans.tokenAt {text : String} {s : Scanner} {placed : List (Token × Nat)}
    (h : Scans s placed)
    (hs : ∃ front, text.toList = front ++ s.rest ∧ byteLength front = s.position) :
    ∀ token ∈ placed, TokenAt text token.2 token.1 := by
  induction h with
  | nil => simp
  | @cons s t token tokens h hmore ih =>
    obtain ⟨front, htext, hfront⟩ := hs
    refine List.forall_mem_cons.2
      ⟨⟨front, s, t, htext, hfront, Scanner.found_of_next h⟩, ih ?_⟩
    have hread := Scanner.reads_next s
    rw [h] at hread
    obtain ⟨read, hrest, hposition, -⟩ := hread
    refine ⟨front ++ read, by rw [htext, hrest, List.append_assoc], ?_⟩
    rw [byteLength_append, hfront, hposition]

theorem Scans.tokenAt_ofText {text : String} {placed : List (Token × Nat)}
    (h : Scans (.ofText text) placed) : ∀ token ∈ placed, TokenAt text token.2 token.1 :=
  h.tokenAt ⟨[], rfl, rfl⟩

end Markup
end Galley
