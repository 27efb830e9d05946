import Relabel.Script.Class
import Relabel.Script.Collection

/-!
# Values and access to their properties

Names, literals, functions and classes, and the properties, calls and templates that follow them.
-/

namespace Relabel.Script

open Reading

/-- Arguments in parentheses. -/
def arguments (rules : Rules) (ctx : Context) : Reading (List Tree) := do
  expect "("
  return (← separated ")" (spreadable rules ctx)).1

/-- An expression in parentheses, or a list that can only be the head of an arrow function. -/
def parenthesized (rules : Rules) (ctx : Context) : Reading Tree := do
  let start ← here
  expect "("
  let inside ← here
  let (items, trailing) ← separated ")" (spreadable rules ctx)
  if items.isEmpty || trailing || items.any takesRest then
    node start (.arrowHead trailing) items
  else match items with
    | [t] => node start .paren [t]
    | items =>
      let stop := (items.getLast?.map (·.span.stop)).getD inside
      node start .paren [.node .sequence ⟨inside, stop⟩ items]

/-- What `new` makes, or `new.target`. -/
def creation (rules : Rules) (ctx : Context) : Reading Tree := do
  let start ← here
  expectWord "new"
  if ← take "." then
    expectWord "target"
    node start (.metaProperty "new.target") []
  else
    guard (!(← seesWordBefore "import" (·.token == .mark "(")))
    let callee ← rules (.access .callee) ctx
    guard (callee.label != .super)
    let args ← if ← sees "(" then arguments rules ctx else pure []
    node start .create (callee :: args)

/-- `import.meta`, or a module that is loaded when it is needed. -/
def importing (rules : Rules) (ctx : Context) : Reading Tree := do
  let start ← here
  expectWord "import"
  let call (phase : String) : Reading Tree := do
    expect "("
    let (args, _) ← separated ")" (rules .assignment ctx.bracketed)
    guard (args.length = 1 || args.length = 2)
    node start (.importCall phase) args
  if ← take "." then
    if ← takeWord "meta" then node start (.metaProperty "import.meta") []
    else if ← takeWord "source" then call "source"
    else
      expectWord "defer"
      call "defer"
  else call ""

/-- The object whose class is extended; it only stands before an access or a call. -/
def superior : Reading Tree := do
  let t ← leaf .super
  guard ((← sees ".") || (← sees "[") || (← sees "("))
  return t

def wordValue (rules : Rules) (ctx : Context) (word : String) : Reading Tree := do
  let start ← here
  match word with
  | "this" => leaf .this
  | "null" => leaf (.constant word)
  | "true" => leaf (.constant word)
  | "false" => leaf (.constant word)
  | "function" => functionFrom rules start false false none
  | "class" => classFrom rules ctx start false []
  | "new" => creation rules ctx
  | "import" => importing rules ctx
  | "super" => superior
  | _ =>
    if ← takeWordBefore "async" beginsFunction then functionFrom rules start true false none
    else identifier ctx

/-- A value that begins with a mark. -/
def markValue (rules : Rules) (ctx : Context) (mark : String) : Reading Tree := do
  let start ← here
  if mark = "(" then parenthesized rules ctx
  else if mark = "[" then array rules ctx
  else if mark = openBrace then object rules ctx
  else if mark = "@" then
    let before ← decorators rules ctx
    classFrom rules ctx start false before
  else
    modify Cursor.asRegex
    match ← token with
    | .regex text => leaf (.regex text)
    | _ => failure

/-- A value on its own. -/
def value (rules : Rules) (ctx : Context) : Reading Tree := do
  match ← token with
  | .name word false => wordValue rules ctx word
  | .name _ true => identifier ctx
  | .number v => leaf (.number v)
  | .bigint text => leaf (.bigint text)
  | .string text => leaf (.string text)
  | .template _ _ _ => template rules ctx false
  | .mark mark => markValue rules ctx mark
  | _ => failure

/-- A value and what follows it so far. -/
structure Accessed where
  tree : Tree
  /-- Whether something in it is optional. -/
  isChained : Bool := false

/-- The property whose dot has been read. -/
def propertyOf (start : Nat) (object : Tree) (isOptional : Bool) : Reading Tree := do
  match ← token with
  | .name text _ =>
    advance
    node start (.member text isOptional) [object]
  | .privateName text =>
    advance
    node start (.privateMember text isOptional) [object]
  | _ => failure

/-- An index in brackets. -/
def elementOf (rules : Rules) (ctx : Context) (start : Nat) (object : Tree) (isOptional : Bool) :
    Reading Tree := do
  expect "["
  let index ← rules .expression ctx.bracketed
  expect "]"
  node start (.element isOptional) [object, index]

def callOf (rules : Rules) (ctx : Context) (start : Nat) (callee : Tree) (isOptional : Bool) :
    Reading Tree := do
  let args ← arguments rules ctx
  node start (.call isOptional) (callee :: args)

/-- One more property, call or template after a value, if there is one. -/
def followed (rules : Rules) (ctx : Context) (reach : Reach) (start : Nat) (a : Accessed) :
    Reading (Option Accessed) := do
  if ← take "." then return some { a with tree := ← propertyOf start a.tree false }
  else if ← take "?." then
    guard (reach ≠ .callee)
    let tree ←
      if ← sees "(" then callOf rules ctx start a.tree true
      else if ← sees "[" then elementOf rules ctx start a.tree true
      else propertyOf start a.tree true
    return some ⟨tree, true⟩
  else if reach ≠ .decorator ∧ (← sees "[") then
    return some { a with tree := ← elementOf rules ctx start a.tree false }
  else if reach ≠ .callee ∧ (← sees "(") then
    return some { a with tree := ← callOf rules ctx start a.tree false }
  else match ← token with
    | .template _ _ _ =>
      guard (!a.isChained)
      let text ← template rules ctx true
      return some { a with tree := ← node start .taggedTemplate [a.tree, text] }
    | _ => return none

/-- A value with what follows it. -/
def access (rules : Rules) (ctx : Context) (reach : Reach) : Reading Tree := do
  let start ← here
  let first ← value rules ctx
  let a ← iterate (followed rules ctx reach start) { tree := first }
  if a.isChained then node start .chain [a.tree] else return a.tree

end Relabel.Script
