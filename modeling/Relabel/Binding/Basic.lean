import Relabel.Text.Piece

/-!
# Bindings

A binding is a delimited expression in an attribute value or a text: `[[...]]` flows one way,
`{{...}}` both ways. Its parts are pieces of the document.
-/

namespace Relabel

/-- The direction in which a binding flows. -/
inductive BindingKind where
  | oneWay
  | twoWay
  deriving DecidableEq, Repr, Inhabited

/-- The delimiter that ends a binding. -/
def BindingKind.closer : BindingKind → List Char
  | .oneWay => [']', ']']
  | .twoWay => ['}', '}']

/-- A delimited binding. -/
structure Binding where
  kind : BindingKind
  negated : Bool
  /-- The expression without delimiters, negation, event and surrounding blanks. -/
  expression : Piece
  /-- The event named after `::`. -/
  event : Option Piece
  /-- From the opening delimiter through the closing one. -/
  outer : Span
  deriving DecidableEq, Repr, Inhabited

/-- An argument of a method call. -/
inductive Argument where
  | literal (piece : Piece)
  | path (piece : Piece)
  deriving DecidableEq, Repr, Inhabited

inductive Expression where
  | path (piece : Piece)
  | literal (piece : Piece)
  | call (method : Piece) (args : List Argument)
  deriving DecidableEq, Repr, Inhabited

end Relabel
