import Relabel.Diagnostic
import Relabel.Json.Decode
import Relabel.Json.Reader
import Relabel.Text.Uppercase

/-!
# Component schemas

What is known of each custom tag: its type, its properties and its methods. A `SchemaTable` holds
at most one schema per tag and answers which type a tag has.
-/

namespace Relabel

/-- A property of a component. -/
structure Property where
  /-- The name is a plain one, so a renamer may change it. -/
  renameable : Bool := false
  /-- The property holds a function. -/
  isMethod : Bool := false
  deriving DecidableEq, Repr, Inhabited

/-- What is known of one custom tag. -/
structure Schema where
  tag : String
  typeName : Option String := none
  properties : List (String × Property) := []
  /-- Each method with whether a renamer may change its name. -/
  methods : List (String × Bool) := []
  deriving DecidableEq, Repr, Inhabited

namespace Schema

open Json

def property? (s : Schema) (name : String) : Option Property :=
  s.properties.lookup name

/-- Whether a method may be renamed; a property that holds a function stands in for a method. -/
def methodRenameable? (s : Schema) (name : String) : Option Bool :=
  match s.methods.lookup name with
  | some renameable => some renameable
  | none => ((s.property? name).filter (·.isMethod)).map (·.renameable)

def propertyOfJson? (json : Json) : Option Property := do
  let fields ← json.fields? ["isRenameable", "isMethod"]
  return {
    renameable := ← optional fields "isRenameable" false toBool?
    isMethod := ← optional fields "isMethod" false toBool? }

def methodOfJson? (json : Json) : Option Bool := do
  let fields ← json.fields? ["isRenameable"]
  optional fields "isRenameable" false toBool?

/-- The schema that a JSON value holds. -/
def ofJson? (json : Json) : Option Schema := do
  let fields ← json.fields? ["tagName", "typeName", "properties", "methods"]
  return {
    tag := ← required fields "tagName" toText?
    typeName := ← optional fields "typeName" none (nullable toText?)
    properties := ← optional fields "properties" [] (toMap? propertyOfJson?)
    methods := ← optional fields "methods" [] (toMap? methodOfJson?) }

end Schema

/-- The parts of a text between its hyphens. -/
def hyphenParts (cs : List Char) : List (List Char) :=
  cs.splitOn '-'

/-- A text whose first character is put in upper case. -/
def capitalize : List Char → List Char
  | [] => []
  | c :: cs => Text.uppercase c ++ cs

/-- The type that the name of a tag suggests: `foo-bar` is a `FooBarElement`. The two template
helpers have types of their own, and a tag without hyphen has none. -/
def defaultTypeName? (tag : String) : Option String :=
  if tag = "dom-if" then some "Polymer.DomIf"
  else if tag = "dom-repeat" then some "Polymer.DomRepeat"
  else if tag.toList.contains '-' then
    some (.ofList ((hyphenParts tag.toList).flatMap capitalize ++ "Element".toList))
  else none

/-- The schemas of a run and the types given by its options. -/
structure SchemaTable where
  schemas : List Schema
  typeNames : List (String × String)
  deriving Repr, Inhabited

namespace SchemaTable

open Json

/-- The first tag that an earlier schema describes already. -/
def repeated? : List String → List Schema → Option String
  | _, [] => none
  | seen, s :: rest => if seen.contains s.tag then some s.tag else repeated? (s.tag :: seen) rest

/-- A table of schemas for pairwise different tags. -/
def build (schemas : List Schema) (typeNames : List (String × String)) :
    Except Failure SchemaTable :=
  match repeated? [] schemas with
  | some tag => .error (.duplicateComponent tag)
  | none => .ok ⟨schemas, typeNames⟩

/-- The table of a JSON array of schemas. -/
def ofJson (json : Option Json) (typeNames : List (String × String)) :
    Except Failure SchemaTable :=
  match json >>= toList? Schema.ofJson? with
  | some schemas => build schemas typeNames
  | none => .error .invalidOptions

/-- The table of a JSON text. -/
def read (text : String) (typeNames : List (String × String)) : Except Failure SchemaTable :=
  ofJson (Json.read? text) typeNames

def get? (t : SchemaTable) (tag : String) : Option Schema :=
  t.schemas.find? (·.tag == tag)

def contains (t : SchemaTable) (tag : String) : Bool :=
  (t.get? tag).isSome

/-- The type of a tag: the options come first, then its schema, then its name. -/
def typeName? (t : SchemaTable) (tag : String) : Option String :=
  match t.typeNames.lookup tag with
  | some name => some name
  | none =>
    match (t.get? tag).bind (·.typeName) with
    | some name => some name
    | none => defaultTypeName? tag

end SchemaTable

end Relabel
