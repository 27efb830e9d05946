import Relabel.Markup.Token

/-!
# Reading markup

Builds the tree from the tokens. An end tag closes the innermost open element of its name; the
elements left open inside it end where the end tag starts, and an end tag without open element is
passed over. What is open at the end of the document ends there.
-/

namespace Relabel.Markup

/-- An element whose end has not been met; its children come last first. -/
structure Opened where
  head : Head
  children : List Node := []
  deriving Repr, Inhabited

/-- The nodes read so far: those of the document, last first, and the open elements, innermost
first. -/
structure Builder where
  roots : List Node := []
  opened : List Opened := []
  deriving Repr, Inhabited

namespace Builder

/-- Puts a node into the innermost open element. -/
def add (b : Builder) (n : Node) : Builder :=
  match b.opened with
  | [] => { b with roots := n :: b.roots }
  | o :: os => { b with opened := { o with children := n :: o.children } :: os }

/-- Closes the innermost open element at a byte. -/
def close (b : Builder) (stop : Nat) : Builder :=
  match b.opened with
  | [] => b
  | o :: os =>
    let head := { o.head with span := ⟨o.head.span.start, stop⟩ }
    add { b with opened := os } (.element head o.children.reverse)

/-- Closes a number of open elements at one byte. -/
def closeMany (stop : Nat) : Nat → Builder → Builder
  | 0, b => b
  | n + 1, b => closeMany stop n (b.close stop)

/-- Closes the innermost open element of a tag, and what is open inside it. -/
def endTag (b : Builder) (tag : String) (span : Span) : Builder :=
  match b.opened.findIdx? (·.head.tag == tag) with
  | none => b
  | some inner => (closeMany span.start inner b).close span.stop

/-- What one token adds. -/
def step (b : Builder) : Token → Builder
  | .comment span => b.add (.comment span)
  | .text piece => b.add (.text piece)
  | .endTag tag span => b.endTag tag span
  | .startTag head selfClosing =>
    if opens head selfClosing then { b with opened := ⟨head, []⟩ :: b.opened }
    else b.add (.element head [])

/-- The tree of a document that ends at a byte. -/
def finish (b : Builder) (stop : Nat) : List Node :=
  (closeMany stop b.opened.length b).roots.reverse

end Builder

/-- The tree that tokens spell in a document of a given size. -/
def ofTokens (size : Nat) (ts : List Token) : List Node :=
  (ts.foldl Builder.step {}).finish (size % UInt32.size)

def read (id source : String) : Except Failure Document :=
  match tokens 0 source.toList with
  | .ok ts => .ok ⟨id, ofTokens (Text.size source.toList) ts⟩
  | .error ⟨problem, offset⟩ =>
    .error (.markup id problem (Text.Place.ofOffset source offset))

end Relabel.Markup
