import Relabel.Fragment.Program
import Relabel.Scope
import Relabel.Text.Span

/-!
# Usages

What a template does with the names of its component and its loops. A usage knows the bytes it
comes from and how it reads as an expression of the emitted program. `rescope` turns references to
the unnamed item of a loop into references to a property of that item.
-/

namespace Relabel

open Fragment (Phrase)

/-- What the first part of a path stands for. -/
inductive Qualifier where
  /-- A property of the component. -/
  | component (renameable : Bool)
  /-- A variable of the loop at a depth. -/
  | loop (role : LoopRole) (bound : LoopVariable) (depth : Nat)
  /-- The item of a loop that gives it no name; only the rest of the path is ever renamed. -/
  | item (base : String)
  deriving DecidableEq, Repr, Inhabited

namespace Qualifier

/-- The qualifier of a path that was looked up. -/
def ofResolution : Resolution → Qualifier
  | .component _ renameable _ => .component renameable
  | .loop _ role bound depth => .loop role bound depth

/-- The loop variable that a path starts with. -/
def base? : Qualifier → Option String
  | .component _ => none
  | .loop _ bound _ => some bound.name
  | .item base => some base

/-- A path as an expression. -/
def phrase (q : Qualifier) (path : String) : Phrase :=
  match q with
  | .component _ => .this path
  | _ => .name path

/-- The item of the loop at `depth`, if the loop does not name it, is only a base from now on. -/
def rescope (depth : Nat) (q : Qualifier) : Qualifier :=
  match q with
  | .loop .item bound d => if bound.isDefault ∧ d = depth then .item bound.name else q
  | _ => q

end Qualifier

/-- Whether a path is an expression or an entry of a loop's `observe` list. -/
inductive PathRole where
  | expression
  | observed
  deriving DecidableEq, Repr, Inhabited

/-- Which function of a loop a callback is. -/
inductive CallbackKind where
  | sort
  | filter
  deriving DecidableEq, Repr, Inhabited

/-- A usage of names in a template. -/
inductive Usage where
  | path (span : Span) (path : String) (qualifier : Qualifier) (role : PathRole)
  /-- A method call; the span is that of the name, the arguments are literals and paths. -/
  | call (span : Span) (name : String) (qualifier : Qualifier) (args : List Usage)
  | literal (text : String)
  /-- A loop; the span is that of its start tag, the depth that of its variables. -/
  | loop (span : Span) (items : Usage) (frame : Frame) (depth : Nat) (children : List Usage)
  /-- An attribute whose name is a renameable property of its tag. -/
  | attributeName (span : Span) (tag type property : String)
  | listener (span : Span) (method : String) (qualifier : Qualifier)
  /-- A value that flows into a property of a tag, and back if it flows both ways. -/
  | dataFlow (span : Span) (tag type property : String) (source : Phrase) (twoWay : Bool)
  /-- A function that a loop calls with its items. -/
  | callback (kind : CallbackKind) (span : Span) (function items : Phrase)
  deriving Repr, Inhabited

namespace Usage

/-- The bytes that a usage comes from. -/
def span? : Usage → Option Span
  | path span .. => some span
  | call span .. => some span
  | literal _ => none
  | loop span .. => some span
  | attributeName span .. => some span
  | listener span .. => some span
  | dataFlow span .. => some span
  | callback _ span .. => some span

mutual

/-- A usage as an expression, where it has a value. -/
def phrase? : Usage → Option Phrase
  | path _ name qualifier _ => some (qualifier.phrase name)
  | call _ name qualifier args => some (.call (qualifier.phrase name) (phrasesOf args))
  | literal text => some (.literal text)
  | _ => none

/-- The expressions of those usages that have a value. -/
def phrasesOf : List Usage → List Phrase
  | [] => []
  | u :: us => (phrase? u).toList ++ phrasesOf us

end

/-- Whether the expression of a usage can be assigned to. -/
def isAssignable : Usage → Bool
  | path .. => true
  | _ => false

mutual

/-- Rescopes every qualifier inside a usage to the loop at `depth`. -/
def rescope (depth : Nat) : Usage → Usage
  | path span name qualifier role => .path span name (qualifier.rescope depth) role
  | call span name qualifier args =>
    .call span name (qualifier.rescope depth) (rescopeAll depth args)
  | loop span items frame d children =>
    .loop span (items.rescope depth) frame d (rescopeAll depth children)
  | listener span method qualifier => .listener span method (qualifier.rescope depth)
  | u => u

/-- Rescopes every usage of a list. -/
def rescopeAll (depth : Nat) : List Usage → List Usage
  | [] => []
  | u :: us => u.rescope depth :: rescopeAll depth us

end

end Usage

end Relabel
