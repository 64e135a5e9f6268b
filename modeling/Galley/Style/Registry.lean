import Galley.Style.TagStyle
import Galley.Text.Case

/-
The tags that markup may use, and the names that measures may use.
-/

namespace Galley
namespace Style

structure Registry (α : Type) where
  tags : Table (TagStyle α) := .empty
  measures : Table (Measure α) := .empty
  deriving Repr, DecidableEq

namespace Registry

variable {α : Type}

def find? (r : Registry α) (tag : String) : Option (TagStyle α) := r.tags.find? tag

/-- The tag opens no scope. -/
def isVoid (r : Registry α) (tag : String) : Bool :=
  match r.find? tag with
  | some style => style.display.isVoid
  | none => false

/-- The entries of another registry over those of this one. -/
def overlay (r other : Registry α) : Registry α :=
  { tags := r.tags.overlay other.tags, measures := r.measures.overlay other.measures }

/-- Tags that were written in any case, in the order in which they are taken.  Of two names
that differ in case alone the later wins. -/
def tagsOf (entries : List (String × TagStyle α)) : Table (TagStyle α) :=
  .ofList (entries.map fun (tag, style) => (Text.lowercase tag.toList, style))

/-! ## The built-in tags -/

def bold : TagStyle α := { fontWeight := some .bold }

def italic : TagStyle α := { fontSlant := some .italic }

/-- A centred heading. -/
def heading (size : String) : TagStyle α :=
  { display := .block, align := some .center, fontSize := some (.expr size),
    fontWeight := some .bold }

/-- Raised or lowered text. -/
def script (align : VerticalAlign) : TagStyle α :=
  { verticalAlign := some align, fontSize := some (.expr "70%") }

def builtinTags : List (String × TagStyle α) :=
  [("b", bold), ("strong", bold), ("i", italic), ("em", italic),
    ("u", { decoration := some .underline }),
    ("s", { decoration := some .lineThrough }),
    ("big", { fontSize := some (.expr "+2") }),
    ("small", { fontSize := some (.expr "-2") }),
    ("br", { display := .lineBreak }),
    ("page", { display := .pageBreak }),
    ("p", { display := .block, indent := some (.expr "3em") }),
    ("sup", script .super),
    ("sub", script .sub),
    ("a", {
      color := some "0000ff"
      decoration := some .underline
      renames := .ofList [("name", "anchor"), ("href", "target")] }),
    ("font", {
      renames := .ofList [("face", "font_family"), ("font", "font_family"),
        ("size", "font_size"), ("color", "color")] }),
    ("center", { display := .block, align := some .center }),
    ("h1", heading "3em"), ("h2", heading "2em"), ("h3", heading "1.2em")]

def builtinMeasures : List (String × Measure α) :=
  [("xx-small", .expr "7"), ("x-small", .expr "8"), ("small", .expr "10"),
    ("medium", .expr "12"), ("large", .expr "14"), ("x-large", .expr "18"),
    ("xx-large", .expr "24"), ("smaller", .expr "-2"), ("larger", .expr "+2")]

def builtin : Registry α :=
  { tags := .ofList builtinTags, measures := .ofList builtinMeasures }

end Registry
end Style
end Galley
