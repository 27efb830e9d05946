import Relabel.Script.Class

/-!
# Statements and declarations
-/

namespace Relabel.Script

open Reading

/-- Where a declaration stands; in the head of a loop what it needs depends on the kind of loop. -/
inductive DeclarationPlace where
  | statement
  | loopHead
  deriving DecidableEq, Repr

/-- Whether a declared variable may have no value: constants and patterns need one. -/
def mayLackValue (kind : String) (target : Tree) : Bool :=
  match target.label with
  | .identifier _ => kind == "var" || kind == "let"
  | _ => false

/-- Whether a kind of declaration admits a pattern. -/
def admitsTarget (kind : String) (target : Tree) : Bool :=
  match target.label with
  | .identifier _ => true
  | _ => kind != "using" && kind != "await using"

/-- A declared variable with its value, if one is written. -/
def declarator (rules : Rules) (ctx : Context) (kind : String) (place : DeclarationPlace) :
    Reading Tree := do
  let start ← here
  let target ← rules .binding ctx
  guard (admitsTarget kind target)
  if ← take "=" then node start .declarator [target, ← rules .assignment ctx]
  else
    guard (place = .loopHead || mayLackValue kind target)
    node start .declarator [target]

/-- Declared variables after the words that say how they are declared. -/
def declarationFrom (rules : Rules) (ctx : Context) (start : Nat) (kind : String)
    (place : DeclarationPlace) : Reading Tree := do
  let first ← declarator rules ctx kind place
  let items ← iterate (fun (items : List Tree) => do
    if ← take "," then return some ((← declarator rules ctx kind place) :: items)
    else return none) [first]
  node start (.declaration kind) items.reverse

/-- Whether `using` before a cursor begins a declaration: a name has to follow on the line, and a
word that joins two operands is none. -/
def isNameAt (c : Cursor) : Bool :=
  match c.token with
  | .name word escaped => !c.newline && (escaped || word ∉ ["in", "instanceof", "of"])
  | _ => false

/-- Whether `await` before a cursor begins a declaration: `using` and its name have to follow. -/
def usesAt (c : Cursor) : Bool :=
  c.token == .name "using" false && !c.newline && isNameAt c.next

/-- Whether `let` before a cursor begins a declaration. What is neither a name nor a mark makes it one
too, and then no name follows. -/
def letDeclares (next : Cursor) : Bool :=
  match next.token with
  | .name word false => word != "in" && word != "instanceof"
  | .mark m => m == "[" || m == openBrace
  | _ => true

/-- The words that begin a declaration of variables, if they come next. -/
def declarationKind? : Reading (Option String) := do
  if ← seesWord "var" then return some "var"
  else if ← seesWord "const" then return some "const"
  else if ← seesWordBefore "let" letDeclares then return some "let"
  else if ← seesWordBefore "using" isNameAt then return some "using"
  else if ← seesWordBefore "await" usesAt then return some "await using"
  else return none

/-- Passes over the words that begin a declaration. -/
def takeKind (kind : String) : Reading Unit := do
  advance
  if kind = "await using" then expectWord "using"

/-- An expression in parentheses after a keyword. -/
def condition (rules : Rules) (ctx : Context) : Reading Tree := do
  expect "("
  let t ← rules .expression ctx
  expect ")"
  return t

/-- The statement after a condition or a label. -/
def dependent (rules : Rules) (ctx : Context) : Reading Tree :=
  rules (.statement .single) ctx

/-! Each of the next rules reads a statement from the token after its keyword on. -/

def ifStatement (rules : Rules) (ctx : Context) (start : Nat) : Reading Tree := do
  let test ← condition rules ctx
  let yes ← dependent rules ctx
  let no ← if ← takeWord "else" then pure [← dependent rules ctx] else pure []
  node start (.statement "if") (test :: yes :: no)

def whileStatement (rules : Rules) (ctx : Context) (start : Nat) (keyword : String) :
    Reading Tree := do
  let test ← condition rules ctx
  node start (.statement keyword) [test, ← dependent rules ctx]

def doStatement (rules : Rules) (ctx : Context) (start : Nat) : Reading Tree := do
  let body ← dependent rules ctx
  expectWord "while"
  let test ← condition rules ctx
  let _ ← take ";"
  node start (.statement "do") [body, test]

/-- The rest of a loop over the values or the names of something. -/
def loopOver (rules : Rules) (ctx : Context) (start : Nat) (keyword : String) (target : Tree) :
    Reading Tree := do
  let items ← rules (if keyword = "for of" then .assignment else .expression) ctx
  expect ")"
  node start (.statement keyword) [target, items, ← dependent rules ctx]

/-- An expression that may be left out before a mark. -/
def optionalBefore (rules : Rules) (ctx : Context) (mark : String) : Reading (List Tree) := do
  if ← take mark then return []
  let t ← rules .expression ctx
  expect mark
  return [t]

/-- The rest of a loop with a condition and a step, from the semicolon after its start on. -/
def countedLoop (rules : Rules) (ctx : Context) (start : Nat) (first : List Tree) :
    Reading Tree := do
  expect ";"
  let test ← optionalBefore rules ctx ";"
  let step ← optionalBefore rules ctx ")"
  node start (.statement "for") (first ++ test ++ step ++ [← dependent rules ctx])

/-- Whether the variables of a loop without collection all have the values that they need. -/
def countsWell (kind : String) (declaration : Tree) : Bool :=
  declaration.children.all fun d =>
    match d.children with
    | [target] => mayLackValue kind target
    | _ => true

/-- Whether a declaration is that of one variable without value. -/
def declaresOne (declaration : Tree) : Bool :=
  match declaration.children with
  | [d] => d.children.length = 1
  | _ => false

/-- The word that makes a loop run over a collection, if it comes next. -/
def takeLoopWord : Reading (Option String) := do
  if ← takeWord "of" then return some "for of"
  else if ← takeWord "in" then return some "for in"
  else return none

/-- A loop whose variables are declared in its head. -/
def declaringLoop (rules : Rules) (ctx : Context) (start : Nat) (isAwait : Bool) (kind : String) :
    Reading Tree := do
  let inside ← here
  takeKind kind
  let declared ← declarationFrom rules { ctx with comparesIn := false } inside kind .loopHead
  match ← takeLoopWord with
  | some keyword =>
    guard (declaresOne declared && (!isAwait || keyword = "for of"))
    loopOver rules ctx start keyword declared
  | none =>
    guard (!isAwait && countsWell kind declared)
    countedLoop rules ctx start [declared]

/-- A loop whose head begins with an expression. -/
def assigningLoop (rules : Rules) (ctx : Context) (start : Nat) (isAwait : Bool) :
    Reading Tree := do
  let asyncOf ← seesWordBefore "async" (·.token == .name "of" false)
  let first ← rules .expression { ctx with comparesIn := false }
  match ← takeLoopWord with
  | some keyword =>
    guard (keyword = "for of" || !isAwait)
    guard (isAwait || !(asyncOf && first.label == .identifier "async" && keyword = "for of"))
    match first.asPattern .plain with
    | some target => loopOver rules ctx start keyword target
    | none => failure
  | none =>
    guard (!isAwait)
    countedLoop rules ctx start [first]

def forStatement (rules : Rules) (ctx : Context) (start : Nat) : Reading Tree := do
  let isAwait ← takeWord "await"
  guard (!isAwait || ctx.awaits)
  expect "("
  if ← sees ";" then
    guard (!isAwait)
    countedLoop rules ctx start []
  else match ← declarationKind? with
    | some kind => declaringLoop rules ctx start isAwait kind
    | none => assigningLoop rules ctx start isAwait

/-- A jump, with the label it goes to if one stands on its line. -/
def jump (ctx : Context) (start : Nat) (keyword : String) : Reading Tree := do
  let named := (← onSameLine) && ((← token) matches .name _ _)
  let target ← if named then pure [← identifier ctx] else pure []
  semicolon
  node start (.statement keyword) target

def returnStatement (rules : Rules) (ctx : Context) (start : Nat) : Reading Tree := do
  guard ctx.returns
  let c ← get
  let ends := c.newline || [.mark ";", .mark closeBrace, .stop].contains c.token
  let value ← if ends then pure [] else pure [← rules .expression ctx]
  semicolon
  node start (.statement "return") value

def throwStatement (rules : Rules) (ctx : Context) (start : Nat) : Reading Tree := do
  guard (← onSameLine)
  let value ← rules .expression ctx
  semicolon
  node start (.statement "throw") [value]

/-- One case of a choice, with the statements up to the next. -/
def switchCase (rules : Rules) (ctx : Context) : Reading Tree := do
  let start ← here
  let isCase ← takeWord "case"
  let test ←
    if isCase then pure [← rules .expression ctx]
    else do
      expectWord "default"
      pure []
  expect ":"
  let body ← iterate (fun (items : List Tree) => do
    if (← seesWord "case") || (← seesWord "default") || (← sees closeBrace) then return none
    else return some ((← rules (.statement .list) ctx) :: items)) []
  node start (.clause (if isCase then "case" else "default")) (test ++ body.reverse)

def switchStatement (rules : Rules) (ctx : Context) (start : Nat) : Reading Tree := do
  let test ← condition rules ctx
  expect openBrace
  let cases ← itemsTo closeBrace (switchCase rules ctx)
  node start (.statement "switch") (test :: cases)

/-- What is done when a statement throws. -/
def catchClause (rules : Rules) (ctx : Context) : Reading Tree := do
  let start ← here
  expectWord "catch"
  let caught ←
    if ← take "(" then do
      let target ← rules .binding ctx
      expect ")"
      pure [target]
    else pure []
  node start (.clause "catch") (caught ++ [← braced rules ctx .block])

def tryStatement (rules : Rules) (ctx : Context) (start : Nat) : Reading Tree := do
  let body ← braced rules ctx .block
  let handler ← if ← seesWord "catch" then pure [← catchClause rules ctx] else pure []
  let after ← here
  let finalizer ←
    if ← takeWord "finally" then do
      let block ← braced rules ctx .block
      pure [← node after (.clause "finally") [block]]
    else pure []
  guard (!(handler.isEmpty && finalizer.isEmpty))
  node start (.statement "try") (body :: handler ++ finalizer)

/-- A statement that is an expression, or a statement with a label. -/
def expressionStatement (rules : Rules) (ctx : Context) : Reading Tree := do
  let start ← here
  let c ← get
  if (c.token matches .name _ _) && c.next.token == .mark ":" then
    let name ← identifier ctx
    expect ":"
    node start .labelled [name, ← dependent rules ctx]
  else
    let value ← rules .expression ctx
    semicolon
    node start .expressionStatement [value]

/-- A function that is declared. Alone after a condition only a plain one may stand. -/
def functionDeclaration (rules : Rules) (ctx : Context) (position : Position) : Reading Tree := do
  let start ← here
  let isAsync ← takeWordBefore "async" beginsFunction
  let t ← functionFrom rules start isAsync true (some ctx)
  guard (position ≠ .single || t.label == .function false false)
  return t

/-- The statement that a keyword begins; any other word begins an expression. -/
def keywordStatement (rules : Rules) (ctx : Context) (position : Position) (keyword : String) :
    Reading Tree := do
  let start ← here
  let after (rest : Reading Tree) : Reading Tree := do
    advance
    rest
  match keyword with
  | "if" => after (ifStatement rules ctx start)
  | "for" => after (forStatement rules ctx start)
  | "while" => after (whileStatement rules ctx start keyword)
  | "with" => after (whileStatement rules ctx start keyword)
  | "do" => after (doStatement rules ctx start)
  | "continue" => after (jump ctx start keyword)
  | "break" => after (jump ctx start keyword)
  | "return" => after (returnStatement rules ctx start)
  | "throw" => after (throwStatement rules ctx start)
  | "switch" => after (switchStatement rules ctx start)
  | "try" => after (tryStatement rules ctx start)
  | "debugger" =>
    after (do
      semicolon
      node start (.statement keyword) [])
  | "function" => functionDeclaration rules ctx position
  | "class" =>
    guard (position ≠ .single)
    classFrom rules ctx start true []
  | _ =>
    if ← seesWordBefore "async" beginsFunction then functionDeclaration rules ctx position
    else expressionStatement rules ctx

/-- A declaration of variables as a statement. -/
def declarationStatement (rules : Rules) (ctx : Context) (position : Position) (kind : String) :
    Reading Tree := do
  guard (kind = "var" || position ≠ .single)
  let start ← here
  takeKind kind
  let t ← declarationFrom rules ctx start kind .statement
  semicolon
  return .node t.label ⟨start, (← get).last⟩ t.children

/-- A statement that imports and exports nothing. -/
def plainStatement (rules : Rules) (ctx : Context) (position : Position) : Reading Tree := do
  let start ← here
  match ← declarationKind? with
  | some kind => declarationStatement rules ctx position kind
  | none =>
    match ← token with
    | .name keyword false => keywordStatement rules ctx position keyword
    | .mark m =>
      if m = openBrace then braced rules ctx .block
      else if m = ";" then leaf .empty
      else if m = "@" then
        guard (position ≠ .single)
        let before ← decorators rules ctx
        classFrom rules ctx start true before
      else expressionStatement rules ctx
    | _ => expressionStatement rules ctx

end Relabel.Script
