import Relabel.Script.Operation
import Relabel.Script.Statement

/-!
# Imports and exports

Both stand in the program itself only, never inside another statement.
-/

namespace Relabel.Script

open Reading

/-- A name or string that an import or export goes by. -/
def exportName : Reading Tree := do
  match ← token with
  | .name text _ => leaf (.name text)
  | _ => stringLiteral

/-- The module that is named after `from`. -/
def fromModule : Reading (List Tree) := do
  let start ← here
  expectWord "from"
  return [← node start (.clause "from") [← stringLiteral]]

/-- A key and a value that say how a module is loaded. -/
def moduleAttribute : Reading Tree := do
  let start ← here
  let key ← exportName
  expect ":"
  node start .property [key, ← stringLiteral]

/-- What is said about how a module is loaded, if anything. -/
def moduleAttributes : Reading (List Tree) := do
  if (← seesWord "with") || ((← seesWord "assert") && (← onSameLine)) then
    advance
    expect openBrace
    return (← separated closeBrace moduleAttribute).1
  else return []

/-- A name that is imported, with the name that it gets here. -/
def importSpecifier (ctx : Context) : Reading Tree := do
  let start ← here
  let given ← exportName
  if ← takeWord "as" then node start .specifier [given, ← identifier ctx]
  else match given.label with
    | .name text =>
      guard (ctx.isIdentifier text)
      node start .specifier [.node (.identifier text) given.span []]
    | _ => failure

/-- All that a module exports, as one object. -/
def importAll (ctx : Context) : Reading Tree := do
  let start ← here
  expect "*"
  expectWord "as"
  node start .specifier [← identifier ctx]

/-- The names that are imported besides a default. -/
def importedNames (ctx : Context) : Reading (List Tree) := do
  if ← sees "*" then return [← importAll ctx]
  else
    expect openBrace
    return (← separated closeBrace (importSpecifier ctx)).1

/-- Whether `source` before a cursor tells when a module is loaded: a name has to follow, or `from` twice. -/
def isPhaseBefore (c : Cursor) : Bool :=
  match c.token with
  | .name "from" false => c.next.token == .name "from" false
  | .name _ _ => true
  | .stop => true
  | _ => false

/-- Passes over a word that tells when a module is loaded. -/
def takePhase : Reading Unit := do
  if !(← takeWordBefore "defer" (·.token == .mark "*")) then
    let _ ← takeWordBefore "source" isPhaseBefore

/-- An import, after its keyword. -/
def importFrom (ctx : Context) (start : Nat) : Reading Tree := do
  let parts ←
    if (← token) matches .string _ then pure [← stringLiteral]
    else do
      takePhase
      let given ← if (← token) matches .name _ _ then pure [← identifier ctx] else pure []
      let more ← if given.isEmpty then pure true else take ","
      let others ← if more then importedNames ctx else pure []
      pure (given ++ others ++ (← fromModule))
  let attributes ← moduleAttributes
  semicolon
  node start (.statement "import") (parts ++ attributes)

/-- A name that is exported, with the name that it goes by elsewhere. -/
def exportSpecifier : Reading Tree := do
  let start ← here
  let given ← exportName
  if ← takeWord "as" then node start .specifier [given, ← exportName]
  else node start .specifier [given]

/-- Whether an exported name is one of this program. -/
def exportsOwn (ctx : Context) (specifier : Tree) : Bool :=
  match specifier.children with
  | .node (.name text) _ _ :: _ => ctx.isIdentifier text
  | _ => false

/-- A list of exported names. -/
def exportList (ctx : Context) (start : Nat) : Reading Tree := do
  expect openBrace
  let (names, _) ← separated closeBrace exportSpecifier
  let source ← if ← seesWord "from" then fromModule else pure []
  guard (!source.isEmpty || names.all (exportsOwn ctx))
  let attributes ← if source.isEmpty then pure [] else moduleAttributes
  semicolon
  node start (.statement "export") (names ++ source ++ attributes)

/-- The name that all of a module is exported by. -/
def exportedAs : Reading Tree := do
  let start ← here
  node start .specifier [← exportName]

/-- An export of all that another module exports. -/
def exportAll (start : Nat) : Reading Tree := do
  expect "*"
  let given ← if ← takeWord "as" then pure [← exportedAs] else pure []
  let source ← fromModule
  let attributes ← moduleAttributes
  semicolon
  node start (.statement "export") (given ++ source ++ attributes)

/-- The value that a program exports by default. -/
def exportDefault (rules : Rules) (ctx : Context) (start : Nat) (before : List Tree) :
    Reading Tree := do
  let inside ← here
  let value ←
    if ← seesWord "function" then functionFrom rules inside false false (some ctx)
    else if ← takeWordBefore "async" beginsFunction then
      functionFrom rules inside true false (some ctx)
    else if (← seesWord "class") || (← sees "@") || !before.isEmpty then do
      let more ← decorators rules ctx
      classFrom rules ctx inside false (before ++ more)
    else do
      let value ← rules .assignment ctx
      semicolon
      pure value
  node start (.statement "export default") [value]

/-- An export, after its keyword. The decorators of a class may stand before the keyword. -/
def exportFrom (rules : Rules) (ctx : Context) (start : Nat) (before : List Tree) :
    Reading Tree := do
  if ← takeWord "default" then exportDefault rules ctx start before
  else if !before.isEmpty then
    node start (.statement "export") [← classFrom rules ctx (← here) true before]
  else if ← sees openBrace then exportList ctx start
  else if ← sees "*" then exportAll start
  else
    let kind ← declarationKind?
    let declares := ["var", "let", "const"].any (kind == some ·)
    let function ← seesWord "function"
    let asyncFunction ← seesWordBefore "async" beginsFunction
    guard (declares || function || asyncFunction || (← seesWord "class") || (← sees "@"))
    node start (.statement "export") [← plainStatement rules ctx .list]

def statement (rules : Rules) (ctx : Context) (position : Position) : Reading Tree := do
  let start ← here
  if ← seesWordBefore "import" fun c => c.token != .mark "(" && c.token != .mark "." then
    guard (position = .top)
    advance
    importFrom ctx start
  else if ← takeWord "export" then
    guard (position = .top)
    exportFrom rules ctx start []
  else if position = .top ∧ (← sees "@") then
    let before ← decorators rules ctx
    if ← takeWord "export" then exportFrom rules ctx start before
    else classFrom rules ctx start true before
  else plainStatement rules ctx position

end Relabel.Script
