/-
The closed choices that a style makes, each with the words it is written in.
-/

namespace Galley
namespace Style

/-- Weight and slant together, the way faces of a family are looked up. -/
structure FontStyle where
  bold : Bool := false
  italic : Bool := false
  deriving Repr, DecidableEq, Inhabited

namespace FontStyle

def normal : FontStyle := {}

/-- Layers a style over another.  The normal one resets; weight and slant add up. -/
def compose (base layer : FontStyle) : FontStyle :=
  if layer = normal then normal
  else { bold := base.bold || layer.bold, italic := base.italic || layer.italic }

def words : List (String × FontStyle) :=
  [("normal", {}), ("bold", { bold := true }), ("italic", { italic := true }),
    ("bold_italic", { bold := true, italic := true })]

def word : FontStyle → String
  | ⟨false, false⟩ => "normal"
  | ⟨true, false⟩ => "bold"
  | ⟨false, true⟩ => "italic"
  | ⟨true, true⟩ => "bold_italic"

end FontStyle

inductive FontWeight where
  | normal
  | bold
  deriving Repr, DecidableEq

namespace FontWeight

def words : List (String × FontWeight) := [("normal", normal), ("bold", bold)]

def word : FontWeight → String
  | normal => "normal"
  | bold => "bold"

end FontWeight

inductive FontSlant where
  | normal
  | italic
  deriving Repr, DecidableEq

namespace FontSlant

def words : List (String × FontSlant) := [("normal", normal), ("italic", italic)]

def word : FontSlant → String
  | normal => "normal"
  | italic => "italic"

end FontSlant

inductive TextAlign where
  | left
  | right
  | center
  | justify
  deriving Repr, DecidableEq, Inhabited

namespace TextAlign

def words : List (String × TextAlign) :=
  [("left", left), ("right", right), ("center", center), ("justify", justify)]

def word : TextAlign → String
  | left => "left"
  | right => "right"
  | center => "center"
  | justify => "justify"

end TextAlign

inductive Decoration where
  | none
  | underline
  | lineThrough
  deriving Repr, DecidableEq, Inhabited

namespace Decoration

def words : List (String × Decoration) :=
  [("none", none), ("underline", underline), ("line_through", lineThrough)]

def word : Decoration → String
  | none => "none"
  | underline => "underline"
  | lineThrough => "line_through"

end Decoration

/-- How a tag takes part in the flow of lines. -/
inductive Display where
  /-- Changes the style and nothing else. -/
  | inline
  /-- A paragraph: it starts on a fresh line and ends with a forced break. -/
  | block
  /-- A void tag that ends the line. -/
  | lineBreak
  /-- A void tag that ends the line and the column. -/
  | pageBreak
  deriving Repr, DecidableEq, Inhabited

namespace Display

def words : List (String × Display) :=
  [("inline", inline), ("block", block), ("break", lineBreak), ("page_break", pageBreak)]

def word : Display → String
  | inline => "inline"
  | block => "block"
  | lineBreak => "break"
  | pageBreak => "page_break"

/-- A void tag opens no scope, so there is nothing for an end tag to close. -/
def isVoid : Display → Bool
  | lineBreak | pageBreak => true
  | inline | block => false

end Display

inductive VerticalAlign where
  | baseline
  | super
  | sub
  deriving Repr, DecidableEq, Inhabited

namespace VerticalAlign

def words : List (String × VerticalAlign) :=
  [("baseline", baseline), ("super", super), ("sub", sub)]

def word : VerticalAlign → String
  | baseline => "baseline"
  | super => "super"
  | sub => "sub"

end VerticalAlign

end Style
end Galley
