import Relabel.Script.Function

/-!
# Classes
-/

namespace Relabel.Script

open Reading

/-- The name that a member is known by, if it is written out. -/
def memberName? (name : Tree) : Option String :=
  match name with
  | .node (.name text) _ _ => some text
  | .node .literalName _ [.node (.string text) _ _] => some text
  | _ => none

/-- Whether a member may have its name: the constructor is a plain method, a class has a prototype
of its own, and no private name is `#constructor`. -/
def mayBeNamed (isStatic isMethod : Bool) (m : Modifiers) (name : Tree) : Bool :=
  match memberName? name with
  | some "constructor" => if isStatic then isMethod else isMethod && m == {}
  | some "prototype" => !isStatic
  | _ => name.label != .privateName "constructor"

/-- Whether a token ends a name that could have been a word before a name. -/
def endsMemberName : Token → Bool
  | .mark m => ["(", "=", ";", closeBrace].contains m
  | _ => false

/-- A field whose name has been read. -/
def fieldFrom (rules : Rules) (start : Nat) (name : Tree) : Reading Tree := do
  let value ← if ← take "=" then pure [← rules .assignment {}] else pure []
  semicolon
  node start .field (name :: value)

def decorator (rules : Rules) (ctx : Context) : Reading Tree := do
  let start ← here
  expect "@"
  node start .decorator [← rules (.access .decorator) ctx]

/-- The decorators before a class or a member. -/
def decorators (rules : Rules) (ctx : Context) : Reading (List Tree) := do
  let items ← iterate (fun (items : List Tree) => do
    if ← sees "@" then return some ((← decorator rules ctx) :: items) else return none) []
  return items.reverse

/-- A method or a field. -/
def member (rules : Rules) (ctx : Context) (start : Nat) (isStatic : Bool) : Reading Tree := do
  let isAccessor ← takeWordBefore "accessor" fun c => !c.newline && beginsProperty c.token
  let m ← modifiers
  let name ← propertyName rules ctx
  let isMethod ← sees "("
  guard (mayBeNamed isStatic isMethod m name)
  if isMethod then
    guard (!isAccessor)
    methodFrom rules start m name
  else
    guard (m == {})
    fieldFrom rules start name

/-- A member of a class with its decorators, or a block that runs when the class is made. -/
def memberItem (rules : Rules) (ctx : Context) : Reading (List Tree) := do
  if ← take ";" then return []
  let start ← here
  let before ← decorators rules ctx
  let isStatic ← takeWordBefore "static" fun c => !endsMemberName c.token
  if isStatic && before.isEmpty && (← sees openBrace) then
    let block ← braced rules { awaits := true } .staticBlock
    return [← node start .staticBlock block.children]
  return before ++ [← member rules ctx start isStatic]

/-- A class from the word `class` on. -/
def classFrom (rules : Rules) (ctx : Context) (start : Nat) (isNamed : Bool) (before : List Tree) :
    Reading Tree := do
  expectWord "class"
  let anonymous := (← sees openBrace) || (← seesWord "extends")
  let name ← if isNamed || !anonymous then pure [← identifier ctx] else pure []
  let heritage ←
    if ← takeWord "extends" then do
      let parent ← rules (.access .all) ctx
      pure [Tree.node .heritage parent.span [parent]]
    else pure []
  expect openBrace
  let members ← iterate (fun (members : List (List Tree)) => do
    if ← take closeBrace then return none
    else return some ((← memberItem rules ctx) :: members)) []
  node start .classDefinition (before ++ name ++ heritage ++ members.reverse.flatten)

end Relabel.Script
