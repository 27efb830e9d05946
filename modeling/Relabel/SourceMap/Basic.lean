import Relabel.Diagnostic
import Relabel.Json.Decode
import Relabel.Json.Reader
import Relabel.Text.Quoted

/-!
# Source maps

A version 3 source map as it stands in JSON. Its `mappings` stay text here.
-/

namespace Relabel

/-- A source map whose mappings are still encoded. -/
structure SourceMap where
  version : Nat
  file : Option String := none
  sourceRoot : Option String := none
  sources : List String := []
  sourcesContent : Option (List (Option String)) := none
  names : List String := []
  mappings : String
  deriving DecidableEq, Repr, Inhabited

namespace SourceMap

open Json

/-- The source map that a JSON value holds. -/
def ofJson? (json : Json) : Option SourceMap := do
  let fields ← json.fields? ["version", "file", "sourceRoot", "sources", "sourcesContent",
    "names", "mappings"]
  return {
    version := ← required fields "version" toWord?
    file := ← optional fields "file" none (nullable toText?)
    sourceRoot := ← optional fields "sourceRoot" none (nullable toText?)
    sources := ← optional fields "sources" [] (toList? toText?)
    sourcesContent := ←
      optional fields "sourcesContent" none (nullable (toList? (nullable toText?)))
    names := ← optional fields "names" [] (toList? toText?)
    mappings := ← required fields "mappings" toText? }

/-- The source map of a JSON value, if there is a value and it holds one. -/
def ofJson (json : Option Json) : Except Failure SourceMap :=
  match json >>= ofJson? with
  | some map => .ok map
  | none => .error .invalidMap

/-- The source map of a JSON text. -/
def read (text : String) : Except Failure SourceMap :=
  ofJson (Json.read? text)

/-- A JSON array of texts that are JSON already. -/
def arrayText (items : List String) : String :=
  "[" ++ String.intercalate "," items ++ "]"

def nullableText (text : Option String) : String :=
  (text.map Text.quoted).getD "null"

/-- The fields of a source map as JSON, in their fixed order; absent ones are left out. -/
def fieldTexts (map : SourceMap) : List (String × String) :=
  [("version", toString map.version)]
    ++ (map.file.map fun t => ("file", Text.quoted t)).toList
    ++ (map.sourceRoot.map fun t => ("sourceRoot", Text.quoted t)).toList
    ++ [("sources", arrayText (map.sources.map Text.quoted))]
    ++ (map.sourcesContent.map fun ts => ("sourcesContent", arrayText (ts.map nullableText))).toList
    ++ [("names", arrayText (map.names.map Text.quoted)), ("mappings", Text.quoted map.mappings)]

/-- The compact JSON text of a source map. -/
def text (map : SourceMap) : String :=
  let members := map.fieldTexts.map fun (name, value) => Text.quoted name ++ ":" ++ value
  "\x7b" ++ String.intercalate "," members ++ "\x7d"

end SourceMap

end Relabel
