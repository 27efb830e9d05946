import Relabel.Text.Piece

/-!
# Template trees

The tree of a template document. Every text, attribute name and attribute value is a piece of the
document, so later passes can put new text in its place without writing markup anew.
-/

namespace Relabel.Markup

/-- An attribute as written; its value is what stands between the quotes. -/
structure Attribute where
  name : Piece
  value : Option Piece
  deriving DecidableEq, Repr, Inhabited

/-- The text of the value, empty if there is none. -/
def Attribute.valueText (a : Attribute) : String :=
  (a.value.map (·.text)).getD ""

/-- All of an element but its content. -/
structure Head where
  /-- The tag in lower case. -/
  tag : String
  attributes : List Attribute
  /-- From the start tag through the end tag, or to where the element is closed without one. -/
  span : Span
  startTag : Span
  deriving DecidableEq, Repr, Inhabited

/-- A node of a template tree. -/
inductive Node where
  /-- A comment, a doctype or a processing instruction. -/
  | comment (span : Span)
  | text (piece : Piece)
  | element (head : Head) (children : List Node)
  deriving Repr, Inhabited

/-- A document that was read. -/
structure Document where
  id : String
  children : List Node
  deriving Repr, Inhabited

namespace Head

/-- The first attribute of a name, in any case of its letters. -/
def attribute? (h : Head) (name : String) : Option Attribute :=
  h.attributes.find? fun a => Text.sameLetters a.name.text name

/-- The value of an attribute; one without value counts as empty. -/
def attributeValue? (h : Head) (name : String) : Option String :=
  (h.attribute? name).map (·.valueText)

/-- The tag an element acts as: a template with an `is` attribute acts as what that names. -/
def effectiveTag (h : Head) : String :=
  if h.tag = "template" then (h.attributeValue? "is").getD h.tag else h.tag

/-- Whether an element repeats its content for each item of a list. -/
def isRepeat (h : Head) : Bool :=
  h.effectiveTag == "dom-repeat"

end Head

/-- An element: its head and its content. -/
abbrev Element := Head × List Node

/-- The elements among some nodes, without those inside them. -/
def childElements (nodes : List Node) : List Element :=
  nodes.filterMap fun
    | .element head children => some (head, children)
    | _ => none

mutual

/-- The elements of a subtree in the order of their start tags. -/
def Node.elements : Node → List Element
  | .element head children => (head, children) :: elementsOf children
  | .text _ => []
  | .comment _ => []

/-- The elements of some subtrees in the order of their start tags. -/
def elementsOf : List Node → List Element
  | [] => []
  | n :: ns => n.elements ++ elementsOf ns

end

/-- The elements of a document with a given tag. -/
def Document.find (d : Document) (tag : String) : List Element :=
  (elementsOf d.children).filter fun (head, _) => Text.sameLetters head.tag tag

/-- What a walk over a tree meets. -/
inductive Event where
  | enter (tag : String)
  | leave (tag : String)
  | text (text : String)
  | comment (span : Span)
  deriving DecidableEq, Repr

mutual

/-- The events of a walk that does not go into the elements that `skip` holds of. -/
def Node.events (skip : Head → Bool) : Node → List Event
  | .comment span => [.comment span]
  | .text piece => [.text piece.text]
  | .element head children =>
    let inner := if skip head then [] else eventsOf skip children
    .enter head.tag :: inner ++ [.leave head.tag]

/-- The events of a walk over some subtrees. -/
def eventsOf (skip : Head → Bool) : List Node → List Event
  | [] => []
  | n :: ns => n.events skip ++ eventsOf skip ns

end

end Relabel.Markup
