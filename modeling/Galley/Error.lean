import Galley.Text.Quoted

/-
Everything that can go wrong, as causes.  The wording stands in one place, so that two causes
never share a message by accident.
-/

namespace Galley

/-- Markup that the scanner cannot read. -/
inductive ScanFault where
  | malformedEntity
  | unterminatedEntity
  | unknownEntity (name : String)
  | openTagWithoutName
  | optionWithoutValue (name : String)
  | unterminatedOption (quote : Char)
  | unclosedTag (tag : String)
  | endTagWithoutName
  | unclosedEndTag (tag : String)
  deriving Repr, DecidableEq

namespace ScanFault

def message : ScanFault → String
  | malformedEntity => "bad format for entity"
  | unterminatedEntity => "missing semicolon to terminate entity"
  | unknownEntity name => "unrecognized entity " ++ Text.quoted name
  | openTagWithoutName => "'<' without valid tag"
  | optionWithoutValue name => "expected assignment after option " ++ name
  | unterminatedOption quote => "expected option value to end with " ++ quote.toString
  | unclosedTag tag => "unclosed tag " ++ Text.quoted tag
  | endTagWithoutName => "'</' without valid tag"
  | unclosedEndTag tag => "unclosed ending tag " ++ Text.quoted tag

end ScanFault

/-- Tags that are not registered or do not nest. -/
inductive NestingFault where
  | unknownTag
  | mismatched
  | nothingOpen
  | unclosed
  deriving Repr, DecidableEq

namespace NestingFault

def message : NestingFault → String
  | unknownTag => "unknown tag"
  | mismatched => "mismatched closing tag"
  | nothingOpen => "closing tag with nothing open"
  | unclosed => "unclosed tag"

end NestingFault

/-- Style values that have no meaning. -/
inductive StyleFault where
  | notPositive (size : String)
  | badColor (hex : String)
  | unknownFontStyle (name : String)
  | unknownWeight (name : String)
  | unknownSlant (name : String)
  | unknownAlignment (name : String)
  | badKerning (value : String)
  | unknownRenderMode (name : String)
  | badZoom (factor : String)
  | unsupportedUnit (expr unit : String)
  | unknownMeasure (name : String)
  | aliasCycle (name : String) (chain : List String)
  | aliasTooDeep (name : String) (limit : Nat)
  deriving Repr, DecidableEq

namespace StyleFault

/-- The property that was to be set. -/
def property : StyleFault → String
  | notPositive _ => "font_size"
  | badColor _ => "color"
  | unknownFontStyle _ | unknownSlant _ => "font_style"
  | unknownWeight _ => "font_weight"
  | unknownAlignment _ => "text_align"
  | badKerning _ => "kerning"
  | unknownRenderMode _ => "render_mode"
  | badZoom _ => "zoom"
  | unsupportedUnit .. | unknownMeasure _ | aliasCycle .. | aliasTooDeep .. => "measure"

/-- The value as it was given. -/
def value : StyleFault → String
  | notPositive v | badColor v | unknownFontStyle v | unknownWeight v | unknownSlant v
  | unknownAlignment v | badKerning v | unknownRenderMode v | badZoom v
  | unsupportedUnit v _ | unknownMeasure v | aliasCycle v _ | aliasTooDeep v _ => v

def reason : StyleFault → String
  | notPositive _ => "must be positive"
  | badColor _ => "expected 3 or 6 hex digits"
  | unknownFontStyle _ => "unknown font-style combination"
  | unknownWeight _ => "expected normal or bold"
  | unknownSlant _ => "expected normal or italic"
  | unknownAlignment _ => "expected left, right, center or justify"
  | badKerning _ => "expected true or false"
  | unknownRenderMode _ => "unsupported rendering mode"
  | badZoom _ => "expected a number"
  | unsupportedUnit _ unit => "unsupported unit " ++ Text.quoted unit
  | unknownMeasure _ => "unrecognized value"
  | aliasCycle _ chain => "alias cycle through " ++ String.intercalate " -> " chain
  | aliasTooDeep _ limit => "alias chain deeper than " ++ toString limit

end StyleFault

/-- Requests that make no sense, refused before layout. -/
inductive UsageFault where
  | rotationWithoutPosition
  | noColumns
  | flowAtFixedPosition
  | missingPosition
  | badColumnCount (text : String)
  | unreadableFile (path reason : String)
  deriving Repr, DecidableEq

namespace UsageFault

def message : UsageFault → String
  | rotationWithoutPosition =>
    "rotate needs a fixed position; set `at` or drop `rotate`"
  | noColumns => "columns must be at least 1"
  | flowAtFixedPosition => "text with a fixed position cannot flow; use draw_at"
  | missingPosition => "draw_at needs a fixed position (`at`)"
  | badColumnCount text => "--columns expects a number, got " ++ Text.quoted text
  | unreadableFile path reason => "cannot read " ++ path ++ ": " ++ reason

end UsageFault

inductive Error where
  /-- The place of the fault, as a byte offset, and the markup from there on. -/
  | scan (fault : ScanFault) (position : Nat) (rest : List Char)
  | nesting (fault : NestingFault) (tag : String) (position : Nat)
  | style (fault : StyleFault)
  | usage (fault : UsageFault)
  /-- A table or option set that does not have the expected form. -/
  | config
  deriving Repr, DecidableEq

namespace Error

/-- Characters of quoted markup shown in a scan error. -/
def contextLength : Nat := 50

def message : Error → String
  | scan fault position rest =>
    fault.message ++ " at " ++ toString position ++ " -> " ++
      String.ofList ((Text.quotedChars rest).take contextLength) ++ "..."
  | nesting fault tag position =>
    fault.message ++ " <" ++ tag ++ "> at " ++ toString position
  | style fault =>
    "invalid value " ++ Text.quoted fault.value ++ " for " ++ fault.property ++ ": " ++
      fault.reason
  | usage fault => "usage error: " ++ fault.message
  | config => "invalid configuration"

end Error
end Galley
