import Relabel.Decimal.Double
import Relabel.Text.Span

/-!
# Script trees

A program is a tree of labelled nodes. Children stand in the order of the text, so a walk from the
root meets everything in the order in which it is written.
-/

namespace Relabel.Script

/-- What a node is; its parts are its children. -/
inductive Label where
  /-- A name that stands for a variable. -/
  | identifier (name : String)
  | this
  | super
  /-- One of the words `null`, `true` and `false`. -/
  | constant (word : String)
  | string (text : String)
  | number (value : Decimal.Double)
  | bigint (text : String)
  | regex (text : String)
  | template
  | templatePart (raw : String)
  | taggedTemplate
  /-- An array; the flag tells whether a comma follows its last item. -/
  | array (trailing : Bool)
  /-- An object; the flag tells whether a comma follows its last property. -/
  | object (trailing : Bool)
  | hole
  | spread
  | property
  | shorthand
  /-- A property `name = value`, which only a pattern may have. -/
  | shorthandDefault
  | method (kind : String)
  | field
  | staticBlock
  /-- The name of a property. -/
  | name (text : String)
  /-- The name of a property that is a string or a number. -/
  | literalName
  | computedName
  | privateName (text : String)
  | function (isAsync isGenerator : Bool)
  | arrow (isAsync : Bool)
  | parameters
  | body
  | classDefinition
  | heritage
  | decorator
  | paren
  /-- A list in parentheses that can only be the parameters of an arrow function. -/
  | arrowHead (trailing : Bool)
  /-- An expression that gives up where something optional is missing. -/
  | chain
  | member (name : String) (isOptional : Bool)
  | privateMember (name : String) (isOptional : Bool)
  | element (isOptional : Bool)
  | call (isOptional : Bool)
  | create
  | metaProperty (name : String)
  | importCall (phase : String)
  | unary (operator : String)
  | update (operator : String) (isPrefix : Bool)
  | binary (operator : String)
  | conditional
  | assignment (operator : String)
  | sequence
  | await
  | yield (delegates : Bool)
  | arrayPattern
  | objectPattern
  | rest
  /-- A pattern with a default value. -/
  | defaulted
  | program
  | block
  | empty
  | expressionStatement
  | declaration (kind : String)
  | declarator
  | labelled
  /-- A statement that starts with a keyword. -/
  | statement (keyword : String)
  /-- A part of a statement that starts with a keyword. -/
  | clause (keyword : String)
  | specifier
  deriving DecidableEq, Repr, Inhabited

/-- Whether a label is that of a private name. -/
def Label.isPrivateName : Label → Bool
  | .privateName _ => true
  | _ => false

/-- A piece of a program with the bytes it stands on. -/
inductive Tree where
  | node (label : Label) (span : Span) (children : List Tree)
  deriving Repr, Inhabited

namespace Tree

def label : Tree → Label
  | .node label _ _ => label

def span : Tree → Span
  | .node _ span _ => span

def children : Tree → List Tree
  | .node _ _ children => children

mutual

/-- A tree and everything in it, in the order of the text. -/
def parts : Tree → List Tree
  | .node label span children => .node label span children :: partsOf children

/-- Everything in some trees, in the order of the text. -/
def partsOf : List Tree → List Tree
  | [] => []
  | t :: ts => t.parts ++ partsOf ts

end

/-- Whether an expression is of a kind that cannot stay: one that only a pattern or the head of an
arrow function may be. -/
def isUnsettled (t : Tree) : Bool :=
  match t.label with
  | .shorthandDefault => true
  | .arrowHead _ => true
  | _ => false

/-- Whether nothing in a tree is unsettled. -/
def isSettled (t : Tree) : Bool :=
  t.parts.all fun part => !part.isUnsettled

end Tree

end Relabel.Script
