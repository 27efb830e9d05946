import Relabel.Fragment.Recorder

/-!
# Externs

The declarations that tell a renamer which functions the recording object has.
-/

namespace Relabel.Fragment

/-- A text in braces. -/
def braced (t : String) : String :=
  "\x7b" ++ t ++ "\x7d"

/-- A tag of a documentation comment that gives a parameter its type. -/
def param (type name : String) : String :=
  "@param " ++ braced type ++ " " ++ name

/-- The parameters of a recorder after the location, with their types. -/
def parameters : Recorder → List (String × String)
  | .identifier => [("*", "reference")]
  | .method => [("!Function", "reference")]
  | .listener => [("!Function", "reference")]
  | .attributeName => [("!Element", "element"), ("*", "reference")]
  | .observedPath => [("*", "reference")]
  | .itemProperty => [("*", "item"), ("*", "reference")]

/-- A documentation comment. -/
def docComment (lines : List String) : String :=
  "/**\n" ++ String.join (lines.map fun l => " * " ++ l ++ "\n") ++ " */\n"

/-- A documentation comment on one line. -/
def docLine (line : String) : String :=
  "/** " ++ line ++ " */\n"

/-- The declaration of a function with an empty body. -/
def functionDeclaration (object name params : String) : String :=
  object ++ "." ++ name ++ " = function(" ++ params ++ ") " ++ braced "" ++ ";\n"

def recorderDeclaration (object : String) (r : Recorder) : String :=
  let all := [("string", "documentId"), ("number", "start"), ("number", "end")]
    ++ parameters r ++ [("...*", "base")]
  docComment (all.map fun (type, name) => param type name)
    ++ functionDeclaration object r.name (String.intercalate ", " (all.map (·.2)))

/-- The externs of a recording object. -/
def externs (object : String) : String :=
  let helper (doc name param : String) := doc ++ functionDeclaration object name param
  String.intercalate "\n" ([
    docComment ["@fileoverview Recording functions for template renaming", "@externs"],
    docLine "@const" ++ "var " ++ object ++ " = " ++ braced "" ++ ";\n"]
    ++ Recorder.all.map (recorderDeclaration object)
    ++ [
      helper (docComment [param "T" "item", "@return " ++ braced "T", "@template T"])
        "domRepeatItem" "item",
      helper (docLine (param "number" "result")) "domRepeatSort" "result",
      helper (docLine (param "*" "result")) "domRepeatFilter" "result",
      helper (docLine (param "!Function" "fn")) "sink" "fn",
      helper (docComment [param "string" "tagName", "@return " ++ braced "!Element"])
        "createElement" "tagName"])

end Relabel.Fragment
