import Galley.Json.Value
import Galley.Style.Registry

/-
Tag styles and registries in JSON.
-/

namespace Galley
namespace Style

def measure? : Json → Option (Measure Float)
  | .text s => some (.expr s)
  | j => j.float?.map .points

namespace TagStyle

def fieldNames : List String :=
  ["display", "fontFamily", "fontSize", "fontWeight", "fontStyle", "color", "kerning",
    "verticalAlign", "textDecoration", "textAlign", "textIndent", "meta"]

def ofJson? (j : Json) : Option (TagStyle Float) := do
  match ← j.fields? fieldNames with
  | [display, family, size, weight, slant, color, kerning, vertical, decoration, align, indent,
      renames] =>
    some {
      display := ← Json.orElse? .inline (Json.word? Display.words) display
      fontFamily := ← Json.orElse? none (Json.optional? Json.text?) family
      fontSize := ← Json.orElse? none (Json.optional? measure?) size
      fontWeight := ← Json.orElse? none (Json.optional? (Json.word? FontWeight.words)) weight
      fontSlant := ← Json.orElse? none (Json.optional? (Json.word? FontSlant.words)) slant
      color := ← Json.orElse? none (Json.optional? Json.text?) color
      kerning := ← Json.orElse? none (Json.optional? Json.bool?) kerning
      verticalAlign :=
        ← Json.orElse? none (Json.optional? (Json.word? VerticalAlign.words)) vertical
      decoration := ← Json.orElse? none (Json.optional? (Json.word? Decoration.words)) decoration
      align := ← Json.orElse? none (Json.optional? (Json.word? TextAlign.words)) align
      indent := ← Json.orElse? none (Json.optional? measure?) indent
      renames := ← Json.orElse? .empty (fun j => (j.members? Json.text?).map .ofList) renames }
  | _ => none

end TagStyle

namespace Registry

/-- A registry as it is written in JSON.  A section that is left out is the built-in one. -/
def written? (j : Json) : Option (Registry Float) := do
  match ← j.fields? ["tags", "measures"] with
  | [tags, measures] =>
    let tags ← Json.orElse? builtinTags (Json.members? TagStyle.ofJson?) tags
    let measures ← Json.orElse? builtinMeasures (Json.members? measure?) measures
    some { tags := .ofList tags, measures := .ofList measures }
  | _ => none

/-- A registry in JSON, in which tags may be written in any case. -/
def ofJson? (j : Json) : Option (Registry Float) :=
  (written? j).map fun written => { written with tags := tagsOf written.tags.entries }

def ofText [JsonReader] (text : String) : Except Error (Registry Float) :=
  match (JsonReader.json? text).bind ofJson? with
  | some registry => .ok registry
  | none => .error .config

end Registry
end Style
end Galley
