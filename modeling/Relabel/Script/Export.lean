import Relabel.Script.Tree

/-!
# Exported names

The names that a program exports. No two exports may have one name.
-/

namespace Relabel.Script

namespace Tree

mutual

/-- The names that a pattern declares. -/
def boundNames : Tree → List String
  | .node label _ children =>
    match label with
    | .identifier name => [name]
    | .property => lastBoundNames children
    | .defaulted => firstBoundNames children
    | _ => boundNamesOf children

/-- The names that some patterns declare. -/
def boundNamesOf : List Tree → List String
  | [] => []
  | t :: ts => t.boundNames ++ boundNamesOf ts

/-- The names that the first of some patterns declares. -/
def firstBoundNames : List Tree → List String
  | [] => []
  | t :: _ => t.boundNames

/-- The names that the last of some patterns declares. -/
def lastBoundNames : List Tree → List String
  | [] => []
  | [t] => t.boundNames
  | _ :: t :: ts => lastBoundNames (t :: ts)

end

/-- The name of a property, an import or an export. -/
def nameText? : Tree → Option String
  | .node (.name text) _ _ => some text
  | .node (.string text) _ _ => some text
  | _ => none

/-- The variable that a part of a definition is. -/
def variableName? : Tree → Option String
  | .node (.identifier name) _ _ => some name
  | _ => none

def declaredNames : Tree → List String
  | .node (.declaration _) _ declarators => declarators.flatMap fun d => firstBoundNames d.children
  | .node (.function _ _) _ parts => (parts.findSome? variableName?).toList
  | .node .classDefinition _ parts => (parts.findSome? variableName?).toList
  | _ => []

/-- The names that a part of an export gives to what is exported. -/
def givenNames : Tree → List String
  | .node .specifier _ names => (names.getLast?.bind nameText?).toList
  | t => t.declaredNames

def exportedNames : Tree → List String
  | .node (.statement "export") _ parts => parts.flatMap givenNames
  | .node (.statement "export default") _ _ => ["default"]
  | _ => []

/-- Whether no name is exported twice by a program. -/
def exportsOnce (program : Tree) : Bool :=
  decide (program.children.flatMap exportedNames).Nodup

end Tree

end Relabel.Script
