import Galley.Table

/-
The pieces of marked-up text.
-/

namespace Galley
namespace Markup

/-- Attributes as they stand in a tag, by name. -/
abbrev Attributes := Table String

inductive Token where
  /-- Runs of text.  Each is a word, a hyphen run, a dash run or one space that stands for a
  whole run of white space. -/
  | text (runs : List String)
  | opening (tag : String) (options : Attributes)
  | closing (tag : String)
  deriving Repr, DecidableEq, Inhabited

end Markup
end Galley
