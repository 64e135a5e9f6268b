import Galley.Markup.Token
import Galley.Style.Kinds
import Galley.Style.Measure

/-
What a tag changes.  Anything left unset is inherited from the enclosing style.
-/

namespace Galley
namespace Style

open Markup

structure TagStyle (α : Type) where
  display : Display := .inline
  fontFamily : Option String := none
  fontSize : Option (Measure α) := none
  fontWeight : Option FontWeight := none
  fontSlant : Option FontSlant := none
  /-- Hexadecimal digits, looked at when the style is used. -/
  color : Option String := none
  kerning : Option Bool := none
  verticalAlign : Option VerticalAlign := none
  decoration : Option Decoration := none
  align : Option TextAlign := none
  indent : Option (Measure α) := none
  /-- Attributes that go by another name: `href` names a target. -/
  renames : Table String := .empty
  deriving Repr, DecidableEq

/-- Reads a word, or says what is wrong with it. -/
def ofWord {β : Type} (words : List (String × β)) (fault : String → StyleFault)
    (word : String) : Except Error β :=
  match words.lookup word with
  | some x => .ok x
  | none => .error (.style (fault word))

namespace FontStyle

def ofWord? (word : String) : Except Error FontStyle :=
  ofWord words .unknownFontStyle word

end FontStyle

namespace FontWeight

def ofWord? (word : String) : Except Error FontWeight := ofWord words .unknownWeight word

end FontWeight

namespace FontSlant

def ofWord? (word : String) : Except Error FontSlant := ofWord words .unknownSlant word

end FontSlant

namespace TextAlign

def ofWord? (word : String) : Except Error TextAlign := ofWord words .unknownAlignment word

end TextAlign

namespace TagStyle

variable {α : Type}

/-- One option on top of a style.  An option that names no property changes nothing. -/
def withOption (style : TagStyle α) (name value : String) : Except Error (TagStyle α) :=
  match name with
  | "font_family" => .ok { style with fontFamily := some value }
  | "font_size" => .ok { style with fontSize := some (.expr value) }
  | "color" => .ok { style with color := some value }
  | "text_align" =>
    (TextAlign.ofWord? value).map fun align => { style with align := some align }
  | "font_weight" =>
    (FontWeight.ofWord? value).map fun weight => { style with fontWeight := some weight }
  | "font_style" =>
    (FontSlant.ofWord? value).map fun slant => { style with fontSlant := some slant }
  | "kerning" =>
    (ofWord [("true", true), ("false", false)] .badKerning value).map fun kerning =>
      { style with kerning := some kerning }
  | _ => .ok style

/-- Options on top of a style, in the order of their names; the first bad one is reported. -/
def withOptions (style : TagStyle α) (options : Attributes) : Except Error (TagStyle α) :=
  options.entries.foldlM (fun style (name, value) => style.withOption name value) style

/-- Gives attributes the names that the tag knows them by.  Where two come to one name, the
later in the order of the written names wins. -/
def resolveOptions (style : TagStyle α) (raw : Attributes) : Attributes :=
  .ofList (raw.entries.map fun (name, value) =>
    ((style.renames.find? name).getD name, value))

end TagStyle
end Style
end Galley
