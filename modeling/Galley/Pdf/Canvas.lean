import Galley.Pdf.Destination
import Galley.Pdf.Document
import Galley.Pdf.Embedding

/-
Pages to draw on.  A canvas keeps the content of each page with its links, the fonts that were
asked for and the named destinations, and turns them into a document.
-/

namespace Galley
namespace Pdf

open Font

/-- The column that text flows into, in page coordinates; y grows upwards. -/
structure Bounds (α : Type) where
  left : α
  top : α
  width : α
  height : α
  deriving Repr

namespace Bounds

variable {α : Type} [Scalar α]

def right (b : Bounds α) : α := b.left + b.width

def bottom (b : Bounds α) : α := b.top - b.height

end Bounds

/-- An upright rectangle by its lower left and upper right corners. -/
structure Rect (α : Type) where
  x1 : α
  y1 : α
  x2 : α
  y2 : α
  deriving Repr, DecidableEq

/-- A rectangle that leads to a target when it is clicked. -/
structure Link (α : Type) where
  rect : Rect α
  target : String
  deriving Repr, DecidableEq

structure Page (α : Type) where
  content : String := ""
  links : List (Link α) := []
  deriving Repr

structure NamedDestination (α : Type) where
  label : String
  /-- Index of its page. -/
  page : Nat
  view : View α
  deriving Repr

structure CanvasFont where
  /-- Name of the face, with the subset if it is not the first. -/
  key : String
  embedded : Option EmbeddedFont
  /-- Characters that were shown, in ascending order. -/
  used : List Char := []

structure Canvas (α : Type) where
  width : α
  height : α
  margin : α
  /-- Top of the free room on the current page. -/
  y : α
  /-- Pages that are finished, the latest first. -/
  finished : List (Page α) := []
  current : Page α := {}
  /-- The font at index `i` is the resource `F(i + 1)`. -/
  fonts : List CanvasFont := []
  destinations : List (NamedDestination α) := []

namespace Canvas

section

variable {α : Type}

/-- All pages in their order. -/
def pages (c : Canvas α) : List (Page α) := c.finished.reverse ++ [c.current]

def setY (c : Canvas α) (y : α) : Canvas α := { c with y }

def addContent (c : Canvas α) (content : String) : Canvas α :=
  { c with current := { c.current with content := c.current.content ++ content } }

def addLink (c : Canvas α) (rect : Rect α) (target : String) : Canvas α :=
  { c with current := { c.current with links := c.current.links ++ [{ rect, target }] } }

def addDestination (c : Canvas α) (label : String) (view : View α) : Canvas α :=
  { c with
    destinations := c.destinations ++ [{ label, page := c.finished.length, view }] }

/-! ## Fonts -/

def fontKey (base : String) (subset : Nat) : String :=
  if subset = 0 then base else base ++ "+" ++ toString subset

def resourceName (index : Nat) : String := "F" ++ toString (index + 1)

/-- The resource of a font, entered when it is first asked for. -/
def fontResource (c : Canvas α) (base : String) (subset : Nat)
    (embedded : Option EmbeddedFont) : String × Canvas α :=
  let key := fontKey base subset
  match c.fonts.findIdx? fun f => f.key = key with
  | some index => (resourceName index, c)
  | none => (resourceName c.fonts.length, { c with fonts := c.fonts ++ [{ key, embedded }] })

/-- Index of a resource by its name. -/
def resourceIndex? (name : String) : Option Nat :=
  match name.toList with
  | 'F' :: number =>
    match Decimal.natural? number with
    | some (n + 1) => some n
    | _ => none
  | _ => none

/-- Adds a character to an ascending list. -/
def insertChar (c : Char) : List Char → List Char
  | [] => [c]
  | d :: rest =>
    if c = d then d :: rest else if c < d then c :: d :: rest else d :: insertChar c rest

def CanvasFont.use (f : CanvasFont) (text : String) : CanvasFont :=
  if f.embedded.isSome then
    { f with used := text.toList.foldl (fun used c => insertChar c used) f.used }
  else f

/-- Takes note of the characters that were shown in an embedded font. -/
def useGlyphs (c : Canvas α) (resource text : String) : Canvas α :=
  match resourceIndex? resource with
  | some index => { c with fonts := c.fonts.modify index fun f => CanvasFont.use f text }
  | none => c

end

variable {α : Type} [Scalar α]

def ofSize (width height margin : α) : Canvas α := { width, height, margin, y := height - margin }

/-- A sheet of A4 with margins of three quarters of an inch. -/
def standard : Canvas α :=
  ofSize (Scalar.decimal 59528 2) (Scalar.decimal 84189 2) ((54 : Nat) : α)

def bounds (c : Canvas α) : Bounds α :=
  { left := c.margin
    top := c.height - c.margin
    width := c.width - ((2 : Nat) : α) * c.margin
    height := c.height - ((2 : Nat) : α) * c.margin }

/-- Starts a page.  The free room is then all of its bounds. -/
def startPage (c : Canvas α) : Canvas α :=
  { c with finished := c.current :: c.finished, current := {}, y := c.height - c.margin }

/-! ## The document -/

def number (x : α) : Value := .number (Scalar.fixed 2 x)

/-- A target after a number sign is a destination, any other an address. -/
def linkAction (target : String) : Value :=
  match target.toList with
  | '#' :: label => .dict [("S", .name "GoTo"), ("D", .name (String.ofList label))]
  | _ => .dict [("S", .name "URI"), ("URI", .bytes (utf8 target))]

def linkValue (link : Link α) : Value :=
  .dict [("Type", .name "Annot"), ("Subtype", .name "Link"),
    ("Rect", .array [number link.rect.x1, number link.rect.y1, number link.rect.x2,
      number link.rect.y2]),
    ("Border", .array [.integer 0, .integer 0, .integer 0]), ("A", linkAction link.target)]

/-- Number of the catalog. -/
def catalogId : Nat := 1

/-- Number of the page tree. -/
def treeId : Nat := 2

/-- Number of the first object after the catalog and the page tree. -/
def firstFreeId : Nat := 3

/-- The objects of a font; the last is the font itself. -/
def fontObjects [FaceReader] (first : Nat) (font : CanvasFont) : List Object :=
  (font.embedded.bind fun embedded => embed? first embedded font.used).getD
    [.value (plainFont font.key)]

/-- Objects of all fonts from a number on, and the numbers of the fonts themselves. -/
def fontsFrom [FaceReader] : Nat → List CanvasFont → List Object × List Nat
  | _, [] => ([], [])
  | first, font :: fonts =>
    let objects := fontObjects first font
    let (more, ids) := fontsFrom (first + objects.length) fonts
    (objects ++ more, (first + objects.length - 1) :: ids)

/-- Fonts of a page by the names of their resources. -/
def fontEntries (ids : List Nat) : List (String × Value) :=
  ids.mapIdx fun i id => (resourceName i, .ref id)

/-- Objects of one page: its links, its content and the page itself. -/
def pageObjects (c : Canvas α) (first : Nat) (fonts : List Nat) (page : Page α) :
    List Object :=
  let content := first + page.links.length
  let annotations := if page.links.isEmpty then []
    else [("Annots", .array ((List.range' first page.links.length).map .ref))]
  page.links.map (fun link => .value (linkValue link)) ++
    [.stream [] (utf8 page.content),
      .value (.dict ([("Type", .name "Page"), ("Parent", .ref treeId),
        ("MediaBox", .array [.integer 0, .integer 0, number c.width, number c.height]),
        ("Contents", .ref content),
        ("Resources", .dict [("Font", .dict (fontEntries fonts))])] ++ annotations))]

/-- Objects of pages from a number on, and the numbers of the pages themselves. -/
def pagesFrom (c : Canvas α) (fonts : List Nat) :
    Nat → List (Page α) → List Object × List Nat
  | _, [] => ([], [])
  | first, page :: pages =>
    let objects := c.pageObjects first fonts page
    let (more, ids) := c.pagesFrom fonts (first + objects.length) pages
    (objects ++ more, (first + objects.length - 1) :: ids)

/-- All destinations by their labels. -/
def destinationsValue (c : Canvas α) (pages : List Nat) : Value :=
  .dict (c.destinations.map fun d =>
    (d.label, d.view.toValue (((pages[d.page]?).map Value.ref).getD .null)))

def document [FaceReader] (c : Canvas α) : Document :=
  let (fontObjects, fonts) := fontsFrom firstFreeId c.fonts
  let firstPage := firstFreeId + fontObjects.length
  let (pageObjects, pages) := c.pagesFrom fonts firstPage c.pages
  let destinations := if c.destinations.isEmpty then []
    else [Object.value (c.destinationsValue pages)]
  let destinationsEntry := if c.destinations.isEmpty then []
    else [("Dests", Value.ref (firstPage + pageObjects.length))]
  let catalog : Value :=
    .dict ([("Type", .name "Catalog"), ("Pages", .ref treeId)] ++ destinationsEntry)
  let tree : Value := .dict [("Type", .name "Pages"), ("Kids", .array (pages.map .ref)),
    ("Count", .integer pages.length)]
  { objects := [.value catalog, .value tree] ++ fontObjects ++ pageObjects ++ destinations }

/-- The content of a page as it stands in the document. -/
def contentStream? (c : Canvas α) (page : Nat) : Option Object :=
  (c.pages[page]?).map fun page => .stream [] (utf8 page.content)

end Canvas
end Pdf
end Galley
