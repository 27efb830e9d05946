import Relabel.Fragment.Key
import Relabel.Script.Reader
import Relabel.Splice

/-!
# Removal

Cuts the statements that assign fragments out of a program. Only a statement that is nothing but
such an assignment counts; what stands around it stays as it is.
-/

namespace Relabel

open Script

namespace Script.Tree

/-- An expression without the parentheses around it. -/
def unwrapped : Tree → Tree
  | .node .paren _ [t] => t.unwrapped
  | t => t

/-- Whether an expression is the property of `window` that holds a fragment. -/
def isFragmentKey : Tree → Bool
  | .node (.element _) _ [.node (.identifier object) _ _, .node (.string key) _ _] =>
    object == "window" && Fragment.isKey key
  | _ => false

def assignsFragment : Tree → Bool
  | .node .expressionStatement _ [.node (.assignment _) _ (target :: _)] =>
    target.unwrapped.isFragmentKey
  | _ => false

mutual

/-- The bytes of the statements that assign fragments and stand in no other one. -/
def fragmentSpans : Tree → List Span
  | .node label span children =>
    if assignsFragment (.node label span children) then [span] else fragmentSpansOf children

/-- The bytes of the statements in some trees that assign fragments. -/
def fragmentSpansOf : List Tree → List Span
  | [] => []
  | t :: ts => t.fragmentSpans ++ fragmentSpansOf ts

end

end Script.Tree

/-- A program without fragments, and how many were cut out of it. -/
structure Removal where
  text : Mapped
  removed : Nat
  deriving DecidableEq, Repr, Inhabited

/-- Cuts the fragments out of a program. One without fragments stays as it is, and so does its
source map, whatever it holds. -/
def Removal.of (file : String) (text : Mapped) : Except Failure Removal := do
  let some tree := Script.read? text.content | throw .scriptSyntax
  let spans := tree.fragmentSpans
  if spans.isEmpty then return ⟨text, 0⟩
  else
    let cut ← text.splice file (spans.map (⟨·, ""⟩))
    return ⟨cut, spans.length⟩

end Relabel
