import Relabel.Script.Cursor
import Relabel.Script.Pattern

/-!
# Grammar rules

A rule moves a cursor and builds a tree, or fails. The grammar is recursive: a rule that needs
another kind of phrase asks for it by its goal, so that each rule can be stated on its own and the
recursion is closed once, over all of them.
-/

namespace Relabel.Script

/-- A step that reads tokens. -/
abbrev Reading := StateT Cursor Option

/-- What the surroundings of a phrase allow. -/
structure Context where
  /-- `in` is an operator. -/
  comparesIn : Bool := true
  /-- `await` is an operator. -/
  awaits : Bool := false
  /-- `yield` is an operator. -/
  yields : Bool := false
  /-- A `return` may stand here. -/
  returns : Bool := false
  deriving DecidableEq, Repr

/-- The context of the body of a function. -/
def Context.ofFunction (isAsync isGenerator : Bool) : Context :=
  ⟨true, isAsync, isGenerator, true⟩

/-- The context of a phrase in brackets. -/
def Context.bracketed (ctx : Context) : Context :=
  { ctx with comparesIn := true }

def Context.isIdentifier (ctx : Context) (word : String) : Bool :=
  !(reservedWords.contains word || (ctx.awaits && word == "await")
    || (ctx.yields && word == "yield"))

/-- Where a statement stands. -/
inductive Position where
  /-- In the program itself. -/
  | top
  /-- In a list of statements. -/
  | list
  /-- Alone, after a condition or a label. -/
  | single
  deriving DecidableEq, Repr

/-- What may follow a value and belong to it. -/
inductive Reach where
  /-- Properties, indices and calls. -/
  | all
  /-- No calls: their arguments are those of the `new` before the value. -/
  | callee
  /-- No indices: brackets begin the name of what a decorator stands before. -/
  | decorator
  deriving DecidableEq, Repr

/-- A kind of phrase that rules ask for. -/
inductive Goal where
  | statement (position : Position)
  | expression
  | assignment
  /-- An expression of operators that bind tighter than a level. -/
  | operation (level : Nat)
  | unary
  /-- A value with what follows it. -/
  | access (reach : Reach)
  /-- A name or pattern that is declared. -/
  | binding
  deriving DecidableEq, Repr

/-- How to read each kind of phrase. -/
abbrev Rules := Goal → Context → Reading Tree

namespace Reading

/-- The current token. -/
def token : Reading Token :=
  return (← get).token

/-- The byte at which the current token starts. -/
def here : Reading Nat :=
  return (← get).start

/-- Goes one token on. -/
def advance : Reading Unit :=
  modify Cursor.next

/-- Whether no line ends before the current token. -/
def onSameLine : Reading Bool :=
  return !(← get).newline

/-- Whether the current token is a mark. -/
def sees (mark : String) : Reading Bool :=
  return (← token) == .mark mark

/-- Whether the current token is a keyword. -/
def seesWord (word : String) : Reading Bool :=
  return (← token) == .name word false

/-- Whether a keyword comes next, at a place where what follows it makes it one. -/
def seesWordBefore (word : String) (after : Cursor → Bool) : Reading Bool := do
  let c ← get
  return c.token == .name word false && after c.next

/-- Passes over a mark if it comes next. -/
def take (mark : String) : Reading Bool := do
  if ← sees mark then
    advance
    return true
  else return false

/-- Passes over a keyword if it comes next. -/
def takeWord (word : String) : Reading Bool := do
  if ← seesWord word then
    advance
    return true
  else return false

/-- Passes over a keyword if it comes next and what follows it makes it one. -/
def takeWordBefore (word : String) (after : Cursor → Bool) : Reading Bool := do
  if ← seesWordBefore word after then
    advance
    return true
  else return false

/-- Passes over a mark that has to come next. -/
def expect (mark : String) : Reading Unit := do
  guard (← take mark)

/-- Passes over a keyword that has to come next. -/
def expectWord (word : String) : Reading Unit := do
  guard (← takeWord word)

/-- A node from a byte up to the last token that was read. -/
def node (start : Nat) (label : Label) (children : List Tree) : Reading Tree :=
  return .node label ⟨start, (← get).last⟩ children

/-- A node of the current token. -/
def leaf (label : Label) : Reading Tree := do
  let start ← here
  advance
  node start label []

/-- Repeats a step until it gives nothing, at most `n` times. -/
def repeatUpTo {α : Type} (step : α → Reading (Option α)) : Nat → α → Reading α
  | 0, _ => failure
  | n + 1, a => do
    match ← step a with
    | some a => repeatUpTo step n a
    | none => return a

/-- Repeats a step, which reads a token at least, until it gives nothing. -/
def iterate {α : Type} (step : α → Reading (Option α)) (a : α) : Reading α := do
  repeatUpTo step ((← get).bound + 2) a

/-- The items up to a closing mark, which is read too. -/
def itemsTo (close : String) (item : Reading Tree) : Reading (List Tree) := do
  let items ← iterate (fun (items : List Tree) => do
    if ← take close then return none
    else return some ((← item) :: items)) []
  return items.reverse

/-- The items between commas up to a closing mark, which is read too, and whether a comma stands
before it. -/
def separated (close : String) (item : Reading Tree) : Reading (List Tree × Bool) := do
  let (items, trailing, _) ← iterate (fun (state : List Tree × Bool × Bool) => do
    let (items, trailing, done) := state
    if done then return none
    else if ← take close then return some (items, trailing, true)
    else
      guard (items.isEmpty || trailing)
      let item ← item
      return some (item :: items, ← take ",", false)) ([], false, false)
  return (items.reverse, trailing)

/-- The end of a statement: a semicolon, or none before a closing brace, at the end of the program
or where a new line starts. -/
def semicolon : Reading Unit := do
  if ← take ";" then return
  let c ← get
  guard (c.newline || c.token == .mark closeBrace || c.token == .stop)

def identifier (ctx : Context) : Reading Tree := do
  match ← token with
  | .name text _ =>
    guard (ctx.isIdentifier text)
    leaf (.identifier text)
  | _ => failure

def stringLiteral : Reading Tree := do
  match ← token with
  | .string text => leaf (.string text)
  | _ => failure

end Reading

end Relabel.Script
