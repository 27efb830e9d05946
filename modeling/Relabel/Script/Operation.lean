import Relabel.Script.Access

/-!
# Operators

Unary and binary operators, conditions, assignments, arrow functions and lists of expressions.
-/

namespace Relabel.Script

open Reading

/-- How tight a binary operator binds. -/
def level? (ctx : Context) : Token → Option (String × Nat)
  | .name "in" false => if ctx.comparesIn then some ("in", 8) else none
  | .name "instanceof" false => some ("instanceof", 8)
  | .mark m =>
    let levels : List (List String) := [["??"], ["||"], ["&&"], ["|"], ["^"], ["&"],
      ["==", "!=", "===", "!=="], ["<", ">", "<=", ">="], ["<<", ">>", ">>>"], ["+", "-"],
      ["*", "/", "%"], ["**"]]
    (levels.findIdx? (·.contains m)).map fun i => (m, i + 1)
  | _ => none

def assignments : List String :=
  ["=", "+=", "-=", "*=", "/=", "%=", "**=", "<<=", ">>=", ">>>=", "&=", "|=", "^=", "&&=", "||=",
    "??="]

/-- Whether an operand may stand beside an operator without parentheses: `??` does not mix with
`||` and `&&`, and the base of a power is no operation on one operand. -/
def mixes (operator : String) (isLeft : Bool) (operand : Tree) : Bool :=
  match operand.label with
  | .binary inner =>
    if operator = "??" then inner != "||" && inner != "&&"
    else if operator = "||" || operator = "&&" then inner != "??"
    else true
  | .unary _ => !(operator = "**" && isLeft)
  | .await => !(operator = "**" && isLeft)
  | _ => true

/-- An operation on an operand that follows it, or on one before it. -/
def updateOf (start : Nat) (operator : String) (isPrefix : Bool) (target : Tree) :
    Reading Tree := do
  guard target.isSimpleTarget
  node start (.update operator isPrefix) [target]

/-- A value with what follows it and maybe an update after that. -/
def updated (rules : Rules) (ctx : Context) : Reading Tree := do
  let start ← here
  let t ← access rules ctx .all
  match ← token with
  | .mark m =>
    if (m = "++" ∨ m = "--") ∧ (← onSameLine) then
      guard t.isSimpleTarget
      advance
      updateOf start m false t
    else return t
  | _ => return t

/-- An expression with at most one operand. -/
def unary (rules : Rules) (ctx : Context) : Reading Tree := do
  let start ← here
  let operation (label : Label) : Reading Tree := do
    advance
    node start label [← rules .unary ctx]
  match ← token with
  | .mark m =>
    if ["+", "-", "!", "~"].contains m then operation (.unary m)
    else if m = "++" ∨ m = "--" then
      advance
      updateOf start m true (← rules .unary ctx)
    else updated rules ctx
  | .name word false =>
    if ["typeof", "void", "delete"].contains word then operation (.unary word)
    else if word = "await" ∧ ctx.awaits then operation .await
    else updated rules ctx
  | _ => updated rules ctx

/-- The first operand of the operators that bind tighter than a level: a private name stands only
before `in`. -/
def firstOperand (rules : Rules) (ctx : Context) (level : Nat) : Reading Tree := do
  match ← token with
  | .privateName text =>
    let name ← leaf (.privateName text)
    match level? ctx (← token) with
    | some (operator, l) =>
      guard (operator = "in" && level < l)
      return name
    | none => failure
  | _ => rules .unary ctx

/-- Operands of the operators that bind tighter than a level. Operators of one level are grouped
from the left, powers from the right. -/
def operation (rules : Rules) (ctx : Context) (level : Nat) : Reading Tree := do
  let start ← here
  let first ← firstOperand rules ctx level
  iterate (fun left => do
    match level? ctx (← token) with
    | some (operator, l) =>
      if l ≤ level then return none
      else
        advance
        let right ← rules (.operation (if operator = "**" then l - 1 else l)) ctx
        guard (mixes operator true left && mixes operator false right)
        return some (← node start (.binary operator) [left, right])
    | none => return none) first

/-- The arrow function whose head has been read as an expression, from its arrow on. After `async`
the head looks like a call. -/
def arrowOf (rules : Rules) (ctx : Context) (start : Nat) (callsAsync : Bool) (head : Tree) :
    Reading Tree := do
  match head with
  | .node (.call false) _ (.node (.identifier "async") _ _ :: items) =>
    guard callsAsync
    match Tree.asParameters false items with
    | some items => arrowFrom rules ctx start true items
    | none => failure
  | head =>
    match head.arrowParameters? with
    | some items => arrowFrom rules ctx start false items
    | none => failure

/-- The target of an assignment. A pattern can only be assigned to with `=`. -/
def targetOf? (operator : String) (t : Tree) : Option Tree :=
  if operator = "=" then t.asPattern .plain
  else if t.isSimpleTarget then some t
  else none

/-- An assignment whose target has been read, if one comes next. -/
def assigned (rules : Rules) (ctx : Context) (start : Nat) (left : Tree) : Reading Tree := do
  match ← token with
  | .mark m =>
    if assignments.contains m then
      match targetOf? m left with
      | some target =>
        advance
        node start (.assignment m) [target, ← rules .assignment ctx]
      | none => failure
    else return left
  | _ => return left

/-- The two values of a condition that has been read. -/
def choice (rules : Rules) (ctx : Context) (start : Nat) (test : Tree) : Reading Tree := do
  expect "?"
  let yes ← rules .assignment ctx.bracketed
  expect ":"
  let no ← rules .assignment ctx
  node start .conditional [test, yes, no]

/-- Whether no operand of `yield` follows. -/
def endsYield : Token → Bool
  | .mark m => [")", "]", closeBrace, ",", ";", ":"].contains m
  | .name word false => word == "in"
  | .stop => true
  | _ => false

/-- A `yield` with its operand, if there is one on its line. -/
def yielded (rules : Rules) (ctx : Context) : Reading Tree := do
  let start ← here
  advance
  if !(← onSameLine) || endsYield (← token) then node start (.yield false) []
  else
    let delegates ← take "*"
    node start (.yield delegates) [← rules .assignment ctx]

/-- Whether a name without parentheses at a cursor is the head of an arrow function. -/
def isArrowHead (c : Cursor) : Bool :=
  match c.token with
  | .name _ _ => !c.newline && c.next.token == .mark "=>" && !c.next.newline
  | _ => false

/-- An expression that is no list. -/
def assignment (rules : Rules) (ctx : Context) : Reading Tree := do
  let start ← here
  if ctx.yields && (← seesWord "yield") then yielded rules ctx
  else if ← takeWordBefore "async" isArrowHead then
    arrowFrom rules ctx start true [← identifier { awaits := true }]
  else
    let callsAsync ← seesWordBefore "async" fun c => !c.newline && c.token == .mark "("
    let left ← rules (.operation 0) ctx
    if ← sees "?" then choice rules ctx start left
    else if ← sees "=>" then arrowOf rules ctx start callsAsync left
    else assigned rules ctx start left

/-- One expression or several with commas between them. -/
def expression (rules : Rules) (ctx : Context) : Reading Tree := do
  let start ← here
  let first ← rules .assignment ctx
  let items ← iterate (fun (items : List Tree) => do
    if ← take "," then return some ((← rules .assignment ctx) :: items) else return none) [first]
  match items with
  | [t] => return t
  | items => node start .sequence items.reverse

end Relabel.Script
