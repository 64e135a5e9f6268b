import Galley.Font.Catalog
import Galley.Font.TrueType
import Galley.Formatter
import Galley.Json.Reader
import Galley.Options.Reading
import Galley.Pdf.Flate
import Galley.Style.Reading

/-
The command line apart from its effects: what the arguments ask for, how the files that were
read become a document, and what is reported.
-/

namespace Galley

open Font Paragraph Pdf Style

namespace CommandLine

/-- What the arguments ask for. -/
structure Request where
  /-- The file with the markup.  Unset, it comes from standard input. -/
  input : Option String
  output : String
  optionsFile : Option String
  stylesFile : Option String
  align : Option String
  optimal : Bool
  columns : Option String
  deriving Repr, DecidableEq

/-- The argument after the first occurrence of a flag that has one after it. -/
def flagValue? (flag : String) : List String → Option String
  | a :: b :: rest => if a = flag then some b else flagValue? flag (b :: rest)
  | _ => none

def isFlag (arg : String) : Bool := arg.toList.head? = some '-'

namespace Request

def defaultOutput : String := "output.pdf"

/-- Only the first argument can be the input file.  Arguments that mean nothing are passed
over. -/
def ofArgs (args : List String) : Request :=
  { input := args.head?.filter fun arg => !isFlag arg
    output := (flagValue? "-o" args).getD defaultOutput
    optionsFile := flagValue? "--options" args
    stylesFile := flagValue? "--styles" args
    align := flagValue? "--align" args
    optimal := args.contains "--optimal"
    columns := flagValue? "--columns" args }

end Request

/-- The content of a file, or why there is none. -/
abbrev FileContent := Except String ByteArray

/-- The files that a request names beside its input. -/
structure SideFiles where
  options : FileContent
  styles : FileContent

def notText : String := "stream did not contain valid UTF-8"

def decodeText (bytes : ByteArray) : Except String String :=
  match String.fromUTF8? bytes with
  | some text => .ok text
  | none => .error notText

/-- The text of a file that configures something. -/
def configText (path : String) (content : FileContent) : Except Error String :=
  match content.bind decodeText with
  | .ok text => .ok text
  | .error reason => .error (.usage (.unreadableFile path reason))

/-- A number of columns that fits 64 bits. -/
def columnCount? (text : String) : Option Nat :=
  (Decimal.natural? text.toList).filter fun n => n < UInt64.size

namespace Request

/-- The options of the file, with those that are given as arguments over them. -/
def options (r : Request) (files : SideFiles) : Except Error (Options Float) := do
  let options ← match r.optionsFile with
    | some path => do Options.ofText (← configText path files.options)
    | none => .ok .standard
  let align ← match r.align with
    | some word => TextAlign.ofWord? word
    | none => .ok options.align
  let columns ← match r.columns with
    | some text =>
      match columnCount? text with
      | some n => .ok n
      | none => .error (.usage (.badColumnCount text))
    | none => .ok options.columns
  return { options with
    align
    columns
    algorithm := if r.optimal then .optimal else options.algorithm }

/-- The built-in tags, with those of the file over them. -/
def registry (r : Request) (files : SideFiles) : Except Error (Registry Float) :=
  match r.stylesFile with
  | some path => do
    let styles ← Registry.ofText (← configText path files.styles)
    return Registry.builtin.overlay styles
  | none => .ok .builtin

/-- The document that a request makes of a text.  Text with a fixed corner is as wide as the
column of the page. -/
def render (r : Request) (files : SideFiles) (text : String) : Except Error Document := do
  let options ← r.options files
  let registry ← r.registry files
  let formatter ← Formatter.ofText text options Catalog.standard.service registry
  let canvas : Canvas Float := .standard
  if options.corner.isSome then
    let (drawn, _, canvas) := formatter.drawAt canvas.bounds.width canvas
    let _ ← drawn
    return canvas.document
  else
    let (drawn, _, canvas) := formatter.paginate canvas
    drawn
    return canvas.document

end Request

/-- How a run ends. -/
inductive Outcome where
  | unreadableInput (reason : String)
  | layoutFailed (cause : Error)
  | writeFailed (path reason : String)
  | written (path : String) (size : Nat)
  deriving Repr, DecidableEq

namespace Outcome

/-- The report on standard error. -/
def message : Outcome → String
  | unreadableInput reason => "✗ Failed to read input: " ++ reason
  | layoutFailed cause => "✗ Layout failed: " ++ cause.message
  | writeFailed path reason => "✗ Failed to write " ++ path ++ ": " ++ reason
  | written path size => "✓ Written " ++ toString size ++ " bytes to " ++ path

def exitCode : Outcome → UInt32
  | written .. => 0
  | _ => 1

end Outcome

/-- A document for the output, or how the run ends without one. -/
def Request.produce (r : Request) (files : SideFiles) (input : FileContent) :
    Except Outcome Document :=
  match input.bind decodeText with
  | .error reason => .error (.unreadableInput reason)
  | .ok text =>
    match r.render files text with
    | .error cause => .error (.layoutFailed cause)
    | .ok document => .ok document

end CommandLine
end Galley
