import Relabel.Script.Function

/-!
# Arrays, objects and templates
-/

namespace Relabel.Script

open Reading

/-- An expression, or three dots and an expression whose items are meant. -/
def spreadable (rules : Rules) (ctx : Context) : Reading Tree := do
  let start ← here
  if ← take "..." then node start .spread [← rules .assignment ctx.bracketed]
  else rules .assignment ctx.bracketed

/-- An item of an array with the comma after it, or a comma that leaves an item out. -/
def arrayItem (rules : Rules) (ctx : Context) : Reading (Tree × Bool) := do
  if ← sees "," then return (← leaf .hole, true)
  let item ← spreadable rules ctx
  let comma ← take ","
  if !comma then guard (← sees "]")
  return (item, comma)

def array (rules : Rules) (ctx : Context) : Reading Tree := do
  let start ← here
  expect "["
  let (items, trailing) ← iterate (fun (state : List Tree × Bool) => do
    if ← take "]" then return none
    else
      let (item, comma) ← arrayItem rules ctx
      return some (item :: state.1, comma)) ([], false)
  node start (.array trailing) items.reverse

/-- A property of an object, other than a spread. -/
def property (rules : Rules) (ctx : Context) : Reading Tree := do
  let start ← here
  let m ← modifiers
  let name ← propertyName rules ctx
  if ← sees "(" then methodFrom rules start m name
  else
    guard (m == {})
    if ← take ":" then node start .property [name, ← rules .assignment ctx.bracketed]
    else match name.label with
      | .name text =>
        guard (ctx.isIdentifier text)
        let reference := Tree.node (.identifier text) name.span []
        if ← take "=" then
          node start .shorthandDefault [reference, ← rules .assignment ctx.bracketed]
        else node start .shorthand [reference]
      | _ => failure

/-- What stands between two commas of an object. -/
def objectItem (rules : Rules) (ctx : Context) : Reading Tree := do
  if ← sees "..." then spreadable rules ctx
  else
    let item ← property rules ctx
    guard (item.children.all fun part => !part.label.isPrivateName)
    return item

def object (rules : Rules) (ctx : Context) : Reading Tree := do
  let start ← here
  expect openBrace
  let (items, trailing) ← separated closeBrace (objectItem rules ctx)
  node start (.object trailing) items

/-- A template. Only after a tag may its text hold an escape without meaning. -/
def template (rules : Rules) (ctx : Context) (isTagged : Bool) : Reading Tree := do
  let start ← here
  let (items, _) ← iterate (fun (state : List Tree × Bool) => do
    let (items, done) := state
    if done then return none
    else match ← token with
      | .template raw valid isLast =>
        guard (isTagged || valid)
        let part ← leaf (.templatePart raw)
        if isLast then return some (part :: items, true)
        else
          let value ← rules .expression ctx.bracketed
          modify Cursor.asTemplate
          return some (value :: part :: items, false)
      | _ => failure) ([], false)
  node start .template items.reverse

/-- A name or pattern that is declared. -/
def binding (rules : Rules) (ctx : Context) : Reading Tree := do
  let written ←
    if ← sees "[" then array rules ctx
    else if ← sees openBrace then object rules ctx
    else identifier ctx
  match written.asPattern .plain with
  | some pattern =>
    guard pattern.isBinding
    return pattern
  | none => failure

end Relabel.Script
