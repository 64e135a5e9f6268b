import Galley.Proofs.Pdf.Canvas

/-
A canvas as it is drawn on.

Whoever draws on a canvas does so by the calls listed here.  The calls alone decide what its pages
hold (`Canvas.pages_run`) and on which page each destination is (`Canvas.destinations_run`).
-/

namespace Galley
namespace Pdf

open Font

/-- The font that text asks for. -/
structure FontRequest where
  base : String
  subset : Nat
  embedded : Option EmbeddedFont

inductive SinkCall (α : Type) where
  | startPage
  | setY (y : α)
  | content (text : String)
  | link (rect : Rect α) (target : String)
  | destination (label : String) (view : View α)
  | font (request : FontRequest)
  /-- Tells which characters were shown in the font of a resource. -/
  | glyphs (resource text : String)

namespace Canvas

variable {α : Type}

/-! ## Fonts leave the rest alone -/

theorem fontResource_eq (c : Canvas α) (base : String) (subset : Nat)
    (embedded : Option EmbeddedFont) :
    ∃ fonts, (c.fontResource base subset embedded).2 = { c with fonts } := by
  unfold fontResource
  dsimp only
  split
  · exact ⟨c.fonts, rfl⟩
  · exact ⟨_, rfl⟩

theorem useGlyphs_eq (c : Canvas α) (resource text : String) :
    ∃ fonts, c.useGlyphs resource text = { c with fonts } := by
  unfold useGlyphs
  split
  · exact ⟨_, rfl⟩
  · exact ⟨c.fonts, rfl⟩

/-! ## Calls -/

variable [Scalar α]

def perform (c : Canvas α) : SinkCall α → Canvas α
  | .startPage => c.startPage
  | .setY y => c.setY y
  | .content text => c.addContent text
  | .link rect target => c.addLink rect target
  | .destination label view => c.addDestination label view
  | .font request => (c.fontResource request.base request.subset request.embedded).2
  | .glyphs resource text => c.useGlyphs resource text

def run (c : Canvas α) (calls : List (SinkCall α)) : Canvas α := calls.foldl perform c

@[simp] theorem run_nil (c : Canvas α) : c.run [] = c := rfl

@[simp] theorem run_cons (c : Canvas α) (call : SinkCall α) (calls : List (SinkCall α)) :
    c.run (call :: calls) = (c.perform call).run calls := rfl

/-! ## Pages and destinations -/

/-- The pages that calls leave behind, from the current page on. -/
def pagesDrawn : Page α → List (SinkCall α) → List (Page α)
  | page, [] => [page]
  | page, .startPage :: calls => page :: pagesDrawn {} calls
  | page, .content text :: calls =>
    pagesDrawn { page with content := page.content ++ text } calls
  | page, .link rect target :: calls =>
    pagesDrawn { page with links := page.links ++ [{ rect, target }] } calls
  | page, _ :: calls => pagesDrawn page calls

/-- The destinations that calls add, each on the page that is the current one then.  `page` is the
index of the page before the calls. -/
def destinationsAdded : Nat → List (SinkCall α) → List (NamedDestination α)
  | _, [] => []
  | page, .startPage :: calls => destinationsAdded (page + 1) calls
  | page, .destination label view :: calls =>
    { label, page, view } :: destinationsAdded page calls
  | page, _ :: calls => destinationsAdded page calls

theorem pages_run_from (c : Canvas α) (calls : List (SinkCall α)) :
    (c.run calls).pages = c.finished.reverse ++ pagesDrawn c.current calls := by
  induction calls generalizing c with
  | nil => rfl
  | cons call calls ih =>
    rw [run_cons, ih]
    cases call with
    | startPage =>
      show (c.current :: c.finished).reverse ++ pagesDrawn {} calls = _
      rw [List.reverse_cons, List.append_assoc]
      rfl
    | font request =>
      obtain ⟨fonts, hfonts⟩ := c.fontResource_eq request.base request.subset request.embedded
      rw [perform, hfonts]
      rfl
    | glyphs resource text =>
      obtain ⟨fonts, hfonts⟩ := c.useGlyphs_eq resource text
      rw [perform, hfonts]
      rfl
    | _ => rfl

theorem destinations_run_from (c : Canvas α) (calls : List (SinkCall α)) :
    (c.run calls).destinations =
      c.destinations ++ destinationsAdded c.finished.length calls := by
  induction calls generalizing c with
  | nil => exact (List.append_nil _).symm
  | cons call calls ih =>
    rw [run_cons, ih]
    cases call with
    | destination label view =>
      show c.destinations ++ [_] ++ destinationsAdded c.finished.length calls = _
      rw [List.append_assoc]
      rfl
    | font request =>
      obtain ⟨fonts, hfonts⟩ := c.fontResource_eq request.base request.subset request.embedded
      rw [perform, hfonts]
      rfl
    | glyphs resource text =>
      obtain ⟨fonts, hfonts⟩ := c.useGlyphs_eq resource text
      rw [perform, hfonts]
      rfl
    | _ => rfl

omit [Scalar α] in
theorem pagesDrawn_pos (page : Page α) (calls : List (SinkCall α)) :
    0 < (pagesDrawn page calls).length := by
  induction calls generalizing page with
  | nil => exact Nat.one_pos
  | cons call calls ih =>
    cases call with
    | startPage => exact Nat.succ_pos _
    | _ => exact ih _

omit [Scalar α] in
/-- A destination is on one of the pages that are drawn. -/
theorem destinationsAdded_lt (first : Nat) (page : Page α) (calls : List (SinkCall α)) :
    ∀ d ∈ destinationsAdded first calls, d.page < first + (pagesDrawn page calls).length := by
  induction calls generalizing first page with
  | nil => simp [destinationsAdded]
  | cons call calls ih =>
    cases call with
    | startPage =>
      intro d hd
      have := ih (first + 1) {} d hd
      show d.page < first + (pagesDrawn {} calls).length.succ
      omega
    | destination label view =>
      refine List.forall_mem_cons.2 ⟨?_, ih first page⟩
      exact Nat.lt_add_of_pos_right (pagesDrawn_pos page calls)
    | _ => exact ih first _

section

variable (width height margin : α) (calls : List (SinkCall α))

theorem pages_run : ((ofSize width height margin).run calls).pages = pagesDrawn {} calls :=
  pages_run_from _ calls

theorem destinations_run :
    ((ofSize width height margin).run calls).destinations = destinationsAdded 0 calls :=
  destinations_run_from _ calls

end

end Canvas
end Pdf
end Galley
