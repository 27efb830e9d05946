import Relabel.Script.Tree

/-!
# Patterns

What stands before `=` is read as an expression first, since only the `=` tells that it is not one.
`asPattern` turns such an expression into the pattern it spells. Patterns that declare names may
have nothing but names at their ends.
-/

namespace Relabel.Script

/-- Where a pattern stands. -/
inductive PatternPlace where
  /-- A pattern without default value. -/
  | plain
  /-- The value of a property. -/
  | value
  /-- An item of an array or a parameter. -/
  | item
  /-- A property of an object. -/
  | property
  deriving DecidableEq, Repr

/-- Whether a tree takes what is left of a list. -/
def takesRest (t : Tree) : Bool :=
  t.label == .spread || t.label == .rest

/-- Whether only the last tree of a list takes what is left, and no comma follows it. -/
def restIsLast (trailing : Bool) : List Tree → Bool
  | [] => true
  | [t] => !(trailing && takesRest t)
  | t :: ts => !takesRest t && restIsLast trailing ts

namespace Tree

/-- Whether a value can be assigned to an expression as it is: a variable or a property. -/
def isSimpleTarget : Tree → Bool
  | .node (.identifier _) _ _ => true
  | .node (.member _ _) _ _ => true
  | .node (.privateMember _ _) _ _ => true
  | .node (.element _) _ _ => true
  | .node .paren _ [t] => t.isSimpleTarget
  | _ => false

mutual

/-- The pattern that an expression spells. -/
def asPattern (place : PatternPlace) : Tree → Option Tree
  | .node label span children =>
    let t := Tree.node label span children
    match place, label with
    | .property, .property => (asPatterns .value children).map (.node .property span)
    | .property, .shorthand => some t
    | .property, .shorthandDefault => some (.node .defaulted span children)
    | .property, .spread =>
      if children.all isSimpleTarget then some (.node .rest span children) else none
    | .property, _ => none
    | .value, .name _ => some t
    | .value, .literalName => some t
    | .value, .computedName => some t
    | .item, .hole => some t
    | .item, .spread => (asPatterns .plain children).map (.node .rest span)
    | place, .assignment operator =>
      if operator = "=" ∧ place ≠ .plain then some (.node .defaulted span children) else none
    | _, .array trailing =>
      if restIsLast trailing children then
        (asPatterns .item children).map (.node .arrayPattern span)
      else none
    | _, .object trailing =>
      if restIsLast trailing children then
        (asPatterns .property children).map (.node .objectPattern span)
      else none
    | _, _ => if t.isSimpleTarget then some t else none

/-- The patterns that some expressions spell. -/
def asPatterns (place : PatternPlace) : List Tree → Option (List Tree)
  | [] => some []
  | t :: ts => do
    let p ← t.asPattern place
    let ps ← asPatterns place ts
    return p :: ps

end

mutual

/-- Whether a pattern declares names only. -/
def isBinding : Tree → Bool
  | .node label _ children =>
    match label with
    | .identifier _ => true
    | .hole => true
    | .shorthand => true
    | .rest => areBindings children
    | .arrayPattern => areBindings children
    | .objectPattern => areBindings children
    | .property => lastIsBinding children
    | .defaulted => firstIsBinding children
    | _ => false

/-- Whether some patterns declare names only. -/
def areBindings : List Tree → Bool
  | [] => true
  | t :: ts => t.isBinding && areBindings ts

/-- Whether the first of some patterns declares names only. -/
def firstIsBinding : List Tree → Bool
  | [] => false
  | t :: _ => t.isBinding

/-- Whether the last of some patterns declares names only. -/
def lastIsBinding : List Tree → Bool
  | [] => false
  | [t] => t.isBinding
  | _ :: t :: ts => lastIsBinding (t :: ts)

end

/-- The parameters that the items of a list in parentheses spell. -/
def asParameters (trailing : Bool) (items : List Tree) : Option (List Tree) := do
  guard (restIsLast trailing items)
  let patterns ← asPatterns .item items
  guard (areBindings patterns)
  return patterns

/-- The parameters of an arrow function whose head has been read as an expression. -/
def arrowParameters? : Tree → Option (List Tree)
  | .node (.identifier name) span children => some [.node (.identifier name) span children]
  | .node .paren _ [.node .sequence _ items] => asParameters false items
  | .node .paren _ [t] => asParameters false [t]
  | .node (.arrowHead trailing) _ items => asParameters trailing items
  | _ => none

end Tree

end Relabel.Script
