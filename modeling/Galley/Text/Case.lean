/-
Upper and lower case of ASCII letters.  Names are compared in lower case.
-/

namespace Galley
namespace Text

/-- The text with its ASCII letters in lower case. -/
def lowercase (cs : List Char) : String := String.ofList (cs.map Char.toLower)

end Text
end Galley
