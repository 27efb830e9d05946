import Relabel.Text.Quoted

/-!
# Emitted programs

The statements and expressions that a fragment is made of, and how they are written. A `record`
statement is a call whose arguments tell a reference from the bytes it stands on.
-/

namespace Relabel.Fragment

/-- An expression of an emitted program. -/
inductive Phrase where
  /-- A dotted path whose first part is a variable. -/
  | name (path : String)
  /-- A dotted path from the component. -/
  | this (path : String)
  | literal (text : String)
  | quoted (text : String)
  | number (value : Nat)
  | member (object : Phrase) (property : String)
  | element (object index : Phrase)
  | call (callee : Phrase) (args : List Phrase)
  | create (constructor : String) (args : List Phrase)
  /-- An expression that is declared to have a type. -/
  | typed (type : String) (value : Phrase)
  deriving Repr, Inhabited

/-- Texts with a separator between neighbours. -/
def joined (separator : String) (texts : List String) : String :=
  String.intercalate separator texts

mutual

/-- An expression as it is written. -/
def Phrase.text : Phrase → String
  | .name path => path
  | .this path => "this." ++ path
  | .literal t => t
  | .quoted t => Text.quoted t
  | .number n => toString n
  | .member object property => object.text ++ "." ++ property
  | .element object index => object.text ++ "[" ++ index.text ++ "]"
  | .call callee args => callee.text ++ "(" ++ joined ", " (textsOf args) ++ ")"
  | .create constructor args => "new " ++ constructor ++ "(" ++ joined ", " (textsOf args) ++ ")"
  | .typed type value => "/** @type \x7b!" ++ type ++ "\x7d */ (" ++ value.text ++ ")"

/-- Expressions as they are written. -/
def textsOf : List Phrase → List String
  | [] => []
  | p :: ps => p.text :: textsOf ps

end

/-- A statement of an emitted program. -/
inductive Statement where
  | run (phrase : Phrase)
  /-- A recording call. -/
  | record (phrase : Phrase)
  | declare (name : String) (value : Phrase)
  | assign (target value : Phrase)
  /-- What a documentation comment says. -/
  | note (text : String)
  | block (body : List Statement)
  /-- A variable that holds a function without parameters. -/
  | declareFunction (name : String) (body : List Statement)
  | assignFunction (target : Phrase) (body : List Statement)
  /-- Runs the body for each index of a list, with the item at the index in a variable. -/
  | forEach (index item : String) (items : Phrase) (body : List Statement)
  deriving Repr, Inhabited

/-- Lines inside a block. -/
def indented (lines : List String) : List String :=
  lines.map ("  " ++ ·)

mutual

def Statement.lines : Statement → List String
  | .run p => [p.text ++ ";"]
  | .record p => [p.text ++ ";"]
  | .declare name value => ["let " ++ name ++ " = " ++ value.text ++ ";"]
  | .assign target value => [target.text ++ " = " ++ value.text ++ ";"]
  | .note text => ["/** " ++ text ++ " */"]
  | .block body => "\x7b" :: indented (linesOf body) ++ ["\x7d"]
  | .declareFunction name body =>
    ("let " ++ name ++ " = function() \x7b") :: indented (linesOf body) ++ ["\x7d;"]
  | .assignFunction target body =>
    (target.text ++ " = function() \x7b") :: indented (linesOf body) ++ ["\x7d;"]
  | .forEach index item items body =>
    ("for (let " ++ index ++ " = 0; " ++ index ++ " < " ++ items.text ++ ".length; "
        ++ index ++ "++) \x7b")
      :: indented (("let " ++ item ++ " = " ++ items.text ++ "[" ++ index ++ "];") :: linesOf body)
      ++ ["\x7d"]

def linesOf : List Statement → List String
  | [] => []
  | s :: ss => s.lines ++ linesOf ss

end

mutual

/-- The number of recording calls in a statement. -/
def Statement.records : Statement → Nat
  | .record _ => 1
  | .block body => recordsOf body
  | .declareFunction _ body => recordsOf body
  | .assignFunction _ body => recordsOf body
  | .forEach _ _ _ body => recordsOf body
  | _ => 0

/-- The number of recording calls in some statements. -/
def recordsOf : List Statement → Nat
  | [] => 0
  | s :: ss => s.records + recordsOf ss

end

def programText (ss : List Statement) : String :=
  String.join ((linesOf ss).map (· ++ "\n"))

end Relabel.Fragment
