import Relabel.Script.Rule

/-!
# Functions

Parameters, bodies, functions, arrow functions and methods.
-/

namespace Relabel.Script

open Reading

/-- A declared name or pattern, with a default value or without. -/
def bindingElement (rules : Rules) (ctx : Context) : Reading Tree := do
  let start ← here
  let target ← rules .binding ctx
  if ← take "=" then
    let value ← rules .assignment ctx.bracketed
    node start .defaulted [target, value]
  else return target

/-- One parameter; three dots make it take the arguments that are left. -/
def parameter (rules : Rules) (ctx : Context) : Reading Tree := do
  let start ← here
  if ← take "..." then node start .rest [← rules .binding ctx]
  else bindingElement rules ctx

/-- Parameters in parentheses. -/
def parameters (rules : Rules) (ctx : Context) : Reading Tree := do
  let start ← here
  expect "("
  let (items, trailing) ← separated ")" (parameter rules ctx)
  guard (restIsLast trailing items)
  node start .parameters items

/-- Statements in braces. -/
def braced (rules : Rules) (ctx : Context) (label : Label) : Reading Tree := do
  let start ← here
  expect openBrace
  let statements ← itemsTo closeBrace (rules (.statement .list) ctx)
  node start label statements

/-- The parameters and the body of a function. -/
def functionParts (rules : Rules) (isAsync isGenerator : Bool) : Reading (List Tree) := do
  let ctx := Context.ofFunction isAsync isGenerator
  let head ← parameters rules ctx
  let body ← braced rules ctx .body
  return [head, body]

/-- A function from the word `function` on. Its name belongs to the context `outer`, or to that of
its own body. -/
def functionFrom (rules : Rules) (start : Nat) (isAsync isNamed : Bool) (outer : Option Context) :
    Reading Tree := do
  expectWord "function"
  let isGenerator ← take "*"
  let ctx := outer.getD (.ofFunction isAsync isGenerator)
  let name ←
    if isNamed || !(← sees "(") then pure [← identifier ctx] else pure []
  let parts ← functionParts rules isAsync isGenerator
  node start (.function isAsync isGenerator) (name ++ parts)

/-- Whether `async` before a cursor says what kind of function follows. -/
def beginsFunction (c : Cursor) : Bool :=
  c.token == .name "function" false && !c.newline

/-- An arrow function from its arrow on. An expression as its body is a statement of its own. -/
def arrowFrom (rules : Rules) (ctx : Context) (start : Nat) (isAsync : Bool) (head : List Tree) :
    Reading Tree := do
  guard (← onSameLine)
  expect "=>"
  let inner := Context.ofFunction isAsync false
  let body ←
    if ← sees openBrace then braced rules inner .body
    else do
      let value ← rules .assignment { inner with comparesIn := ctx.comparesIn }
      pure (.node .body value.span [.node .expressionStatement value.span [value]])
  node start (.arrow isAsync) (head ++ [body])

/-- Whether a token may start the name of a property. -/
def beginsProperty : Token → Bool
  | .name _ _ => true
  | .privateName _ => true
  | .string _ => true
  | .number _ => true
  | .bigint _ => true
  | .mark m => m == "["
  | _ => false

def propertyName (rules : Rules) (ctx : Context) : Reading Tree := do
  let start ← here
  match ← token with
  | .name text _ => leaf (.name text)
  | .privateName text => leaf (.privateName text)
  | .string text => node start .literalName [← leaf (.string text)]
  | .number value => node start .literalName [← leaf (.number value)]
  | .bigint text => node start .literalName [← leaf (.bigint text)]
  | _ =>
    expect "["
    let key ← rules .assignment ctx.bracketed
    expect "]"
    node start .computedName [key]

/-- What is said before the name of a method. -/
structure Modifiers where
  isAsync : Bool := false
  isGenerator : Bool := false
  /-- One of `method`, `get` and `set`. -/
  kind : String := "method"
  deriving DecidableEq, Repr

/-- The words and the star before the name of a method. A word that no name follows is the name
itself, unless the program ends behind it: then the name is missing. -/
def modifiers : Reading Modifiers := do
  let named (c : Cursor) : Bool := beginsProperty c.token || c.token == .stop
  let asyncNamed (c : Cursor) : Bool := !c.newline && (beginsProperty c.token || c.token == .mark "*")
  if ← takeWordBefore "async" asyncNamed then
    return { isAsync := true, isGenerator := ← take "*" }
  else if ← takeWordBefore "get" named then return { kind := "get" }
  else if ← takeWordBefore "set" named then return { kind := "set" }
  else return { isGenerator := ← take "*" }

/-- Whether a method may have these parameters. -/
def Modifiers.admits (m : Modifiers) (head : Tree) : Bool :=
  match m.kind, head.children with
  | "get", items => items.isEmpty
  | "set", [item] => !takesRest item
  | "set", _ => false
  | _, _ => true

/-- A method whose name has been read. -/
def methodFrom (rules : Rules) (start : Nat) (m : Modifiers) (name : Tree) : Reading Tree := do
  let inner ← here
  let parts ← functionParts rules m.isAsync m.isGenerator
  guard (parts.head?.all m.admits)
  let definition ← node inner (.function m.isAsync m.isGenerator) parts
  node start (.method m.kind) [name, definition]

end Relabel.Script
