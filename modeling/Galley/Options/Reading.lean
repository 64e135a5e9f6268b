import Galley.Json.Value
import Galley.Options

/-
Options in JSON.
-/

namespace Galley

open Drawing Paragraph Style

namespace Paragraph
namespace OptimalConfig

def fieldNames : List String :=
  ["initialToleranceRatio", "growth", "maxRetries", "overflowPenalty"]

def ofJson? (j : Json) : Option (OptimalConfig Float) := do
  let absent : OptimalConfig Float := standard
  match ← j.fields? fieldNames with
  | [ratio, growth, retries, penalty] =>
    some {
      initialToleranceRatio := ← Json.orElse? absent.initialToleranceRatio Json.float? ratio
      growth := ← Json.orElse? absent.growth Json.float? growth
      maxRetries := ← Json.orElse? absent.maxRetries (Json.natBelow? UInt32.size) retries
      overflowPenalty := ← Json.orElse? absent.overflowPenalty Json.float? penalty }
  | _ => none

end OptimalConfig
end Paragraph

namespace Options

def fieldNames : List String :=
  ["fontFamily", "fontSize", "fontStyle", "color", "kerning", "align", "spacing", "mode",
    "algorithm", "optimal", "columns", "gap", "at", "rotate", "renderMode"]

/-- A point as a list of two numbers. -/
def point? : Json → Option (Float × Float)
  | .array [x, y] => do some (← x.float?, ← y.float?)
  | _ => none

def ofJson? (j : Json) : Option (Options Float) := do
  let absent : Options Float := standard
  match ← j.fields? fieldNames with
  | [family, size, style, color, kerning, align, spacing, mode, algorithm, optimal, columns, gap,
      corner, rotate, renderMode] =>
    some {
      fontFamily := ← Json.orElse? absent.fontFamily Json.text? family
      fontSize := ← Json.orElse? absent.fontSize Json.float? size
      fontStyle := ← Json.orElse? absent.fontStyle (Json.word? FontStyle.words) style
      color := ← Json.orElse? absent.color Json.text? color
      kerning := ← Json.orElse? none (Json.optional? Json.bool?) kerning
      align := ← Json.orElse? absent.align (Json.word? TextAlign.words) align
      spacing := ← Json.orElse? absent.spacing Json.float? spacing
      mode := ← Json.orElse? absent.mode (Json.word? WrapMode.words) mode
      algorithm := ← Json.orElse? absent.algorithm (Json.word? Algorithm.words) algorithm
      optimal := ← Json.orElse? absent.optimal OptimalConfig.ofJson? optimal
      columns := ← Json.orElse? absent.columns (Json.natBelow? UInt64.size) columns
      gap := ← Json.orElse? absent.gap Json.float? gap
      corner := ← Json.orElse? none (Json.optional? point?) corner
      rotation := ← Json.orElse? none
        (Json.optional? fun j => j.float?.map Rotation.ofDegrees) rotate
      renderMode := ← Json.orElse? none (Json.optional? Json.text?) renderMode }
  | _ => none

def ofText [JsonReader] (text : String) : Except Error (Options Float) :=
  match (JsonReader.json? text).bind ofJson? with
  | some options => .ok options
  | none => .error .config

end Options
end Galley
