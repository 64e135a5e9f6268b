import Galley.Pdf.Escape

/-
The values that the objects of a document are made of.
-/

namespace Galley
namespace Pdf

inductive Value where
  | null
  | integer (n : Int)
  /-- A number with a set count of decimals, as it is written. -/
  | number (text : String)
  | name (s : String)
  | bytes (data : List UInt8)
  /-- Refers to an object by its number. -/
  | ref (id : Nat)
  | array (items : List Value)
  /-- An array with room inside its brackets. -/
  | wideArray (items : List Value)
  | dict (entries : List (String × Value))
  deriving Inhabited

namespace Value

mutual

def write : Value → String
  | null => "null"
  | integer n => toString n
  | number text => text
  | name s => "/" ++ nameText s
  | bytes data => "(" ++ escapeBytes data ++ ")"
  | ref id => toString id ++ " 0 R"
  | array items => "[" ++ String.intercalate " " (writeItems items) ++ "]"
  | wideArray items => "[" ++ String.join ((writeItems items).map fun s => " " ++ s) ++ " ]"
  | dict entries => "<< " ++ String.join (writeEntries entries) ++ ">>"

def writeItems : List Value → List String
  | [] => []
  | item :: items => write item :: writeItems items

def writeEntries : List (String × Value) → List String
  | [] => []
  | entry :: entries => writeEntry entry :: writeEntries entries

def writeEntry : String × Value → String
  | (key, value) => "/" ++ nameText key ++ " " ++ write value ++ " "

end

end Value

/-- The body of a numbered object. -/
inductive Object where
  | value (v : Value)
  /-- A compressed stream.  `extra` goes into its dictionary. -/
  | stream (extra : List (String × Value)) (data : List UInt8)
  deriving Inhabited

namespace Object

/-- The dictionary of a stream whose compressed data has a given length. -/
def streamDict (extra : List (String × Value)) (length : Value) : Value :=
  .dict ([("Length", length)] ++ extra ++ [("Filter", .name "FlateDecode")])

end Object
end Pdf
end Galley
