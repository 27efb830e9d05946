import Relabel.Decimal.Shortest
import Relabel.Renaming
import Relabel.Script.Reader
import Relabel.Text.Spelling

/-!
# Recovery

Reads a renamed program and finds what its recording calls say. A call whose location is broken
ends the run. A reference that does not fit only gives up the document that the call names.
-/

namespace Relabel

open Script

/-- A call of a recorder for a range of bytes of a document. -/
structure RecordingCall where
  recorder : Recorder
  document : String
  span : Span
  /-- All arguments, those of the location included. -/
  args : List Tree
  deriving Repr, Inhabited

namespace RecordingCall

/-- The name at an argument that is an identifier. -/
def identifierAt? (args : List Tree) (i : Nat) : Option String :=
  match args[i]? with
  | some (.node (.identifier name) _ _) => some name
  | _ => none

/-- The text at an argument that is a string. -/
def stringAt? (args : List Tree) (i : Nat) : Option String :=
  match args[i]? with
  | some (.node (.string text) _ _) => some text
  | _ => none

/-- The variable that comes first in the call at an argument. -/
def calledWithAt? (args : List Tree) (i : Nat) : Option String :=
  match args[i]? with
  | some (.node (.call _) _ (_ :: given)) => identifierAt? given 0
  | _ => none

/-- The byte offset at an argument: a whole number of 32 bits. -/
def offsetAt (args : List Tree) (i : Nat) (which : String) : Except LocationProblem Nat :=
  match args[i]? with
  | some (.node (.number value) _ _) =>
    match value.toNat? with
    | some n => if n < UInt32.size then .ok n else .error (.badOffset which value.text)
    | none => .error (.badOffset which value.text)
  | _ => .error (.lostOffset which)

/-- The document and the bytes that the first three arguments name. -/
def location (args : List Tree) : Except LocationProblem (String × Span) := do
  let some document := stringAt? args 0 | throw .lostDocument
  let start ← offsetAt args 1 "start"
  let stop ← offsetAt args 2 "end"
  return (document, ⟨start, stop⟩)

/-- The recording call that an expression is, if it calls a recorder of the object. -/
def ofTree? (object : String) : Tree → Option (Except Failure RecordingCall)
  | .node (.call _) span (.node (.member name _) _ [.node (.identifier base) _ _] :: args) => do
    guard (base = object)
    let recorder ← Recorder.ofName? name
    match location args with
    | .ok (document, range) => return .ok ⟨recorder, document, range, args⟩
    | .error problem => return .error (.lostLocation recorder span.start problem)
  | _ => none

/-- The parts of a path, if an expression is one; brackets with a string count as a name. -/
def path? : Tree → Option (List String)
  | .node .this _ _ => some ["this"]
  | .node (.identifier name) _ _ => some [name]
  | .node (.member name _) _ [object] => (path? object).map (· ++ [name])
  | .node (.element _) _ [object, .node (.string name) _ _] => (path? object).map (· ++ [name])
  | .node .paren _ [t] => path? t
  | _ => none

/-- A path as text. -/
def dotted (parts : List String) : String :=
  String.intercalate "." parts

/-- A path without the component that it starts from. -/
def withoutThis : List String → List String
  | "this" :: part :: parts => part :: parts
  | parts => parts

/-- The failure of a call whose reference cannot be read. -/
def unsupported (c : RecordingCall) : Failure :=
  .unsupported c.document c.span c.recorder

/-- The path at an argument. -/
def reference (c : RecordingCall) (i : Nat) : Except Failure (List String) :=
  match c.args[i]? >>= path? with
  | some parts => .ok parts
  | none => .error c.unsupported

/-- What follows the base in a path that starts with it. -/
def afterBase (c : RecordingCall) (parts : List String) (base : String) :
    Except Failure (List String) :=
  match parts with
  | [] => .error (.contract c.document c.span "" base)
  | first :: rest =>
    if first = base then .ok rest
    else .error (.contract c.document c.span (dotted parts) base)

/-- The name of a reference that a base may follow. The text of the base takes its place in the
name if `keepsBase` says so, and is left out otherwise. -/
def basedName (c : RecordingCall) (keepsBase : Bool) : Except Failure String := do
  let parts ← c.reference 3
  match identifierAt? c.args 4, stringAt? c.args 5 with
  | some base, some quoted =>
    let rest ← c.afterBase parts base
    return dotted (if keepsBase then quoted :: rest else rest)
  | _, _ => return dotted (withoutThis parts)

/-- The attribute name of a property of the element at the fourth argument. -/
def attributeName (c : RecordingCall) : Except Failure String := do
  let some element := identifierAt? c.args 3 | throw c.unsupported
  let parts ← c.reference 4
  match parts with
  | first :: part :: rest =>
    if first = element then return Text.hyphenate (dotted (part :: rest))
    else throw (.contract c.document c.span (dotted parts) element)
  | parts => throw (.contract c.document c.span (dotted parts) element)

/-- The name of a property of an item. -/
def itemName (c : RecordingCall) : Except Failure String := do
  let some base := calledWithAt? c.args 3 | throw c.unsupported
  let parts ← c.reference 4
  let some quoted := stringAt? c.args 5 | throw c.unsupported
  let rest ← c.afterBase parts base
  return dotted (quoted :: rest)

def settledName (c : RecordingCall) : Except Failure String :=
  match c.recorder with
  | .identifier => c.basedName true
  | .method => c.basedName true
  | .listener => c.basedName true
  | .observedPath => c.basedName false
  | .attributeName => c.attributeName
  | .itemProperty => c.itemName

def settled (c : RecordingCall) : Except Failure Renaming := do
  return ⟨c.document, c.span, ← c.settledName⟩

end RecordingCall

/-- The recording calls of a program, in its order; the first broken location fails. -/
def recordingCalls (object : String) (tree : Tree) : Except Failure (List RecordingCall) :=
  (tree.parts.filterMap (RecordingCall.ofTree? object)).mapM id

/-- The recording calls of a renamed program. -/
structure Recovery where
  calls : List RecordingCall
  deriving Repr, Inhabited

namespace Recovery

/-- Reads a renamed program. -/
def read (object program : String) : Except Failure Recovery := do
  let some tree := Script.read? program | throw .scriptSyntax
  return ⟨← recordingCalls object tree⟩

/-- The documents that calls name, in the order of their first calls. -/
def documents (r : Recovery) : List String :=
  (r.calls.map (·.document)).eraseDups

/-- The renamings of a document; the first reference that does not fit gives it up. -/
def renamings (r : Recovery) (document : String) : Except Failure (List Renaming) :=
  (r.calls.filter (·.document == document)).mapM RecordingCall.settled

end Recovery

end Relabel
