import Relabel.SourceMap.Basic
import Relabel.SourceMap.Mappings

/-!
# Splicing

Replaces byte ranges of a text. Edits are applied from the end of the text to its start, so the
ranges that are still to come stay valid, and a source map is moved along with every edit.
-/

namespace Relabel

/-- Puts a text in place of a range of bytes. -/
structure Edit where
  span : Span
  text : String
  deriving DecidableEq, Repr, Inhabited

namespace Edit

/-- Whether `a` is applied before `b` or the two have one range: later ranges come first, of two
with one start the longer. -/
def precedes (a b : Edit) : Bool :=
  b.span.start < a.span.start || (a.span.start = b.span.start && b.span.stop ≤ a.span.stop)

/-- Edits in which equal neighbours count once. -/
def distinct : List Edit → List Edit
  | [] => []
  | [e] => [e]
  | a :: b :: rest => if a = b then distinct (b :: rest) else a :: distinct (b :: rest)

/-- Edits in the order in which they are applied, each once. -/
def ordered (edits : List Edit) : List Edit :=
  distinct (edits.mergeSort precedes)

/-- Whether the range of an edit is one of the text. -/
def fits (content : List Char) (e : Edit) : Bool :=
  e.span.start ≤ e.span.stop && Text.isBoundary content e.span.start
    && Text.isBoundary content e.span.stop

/-- Whether an edit that comes later in the text leaves room for an earlier one. -/
def clashes (later earlier : Edit) : Bool :=
  later.span.start < earlier.span.stop || earlier.span = later.span

/-- The first two neighbours that clash. -/
def clash? : List Edit → Option (Edit × Edit)
  | later :: earlier :: rest =>
    if clashes later earlier then some (later, earlier) else clash? (earlier :: rest)
  | _ => none

/-- Edits in the order in which they are applied, if every one can be. -/
def check (document : String) (content : List Char) (edits : List Edit) :
    Except Failure (List Edit) :=
  let edits := ordered edits
  match edits.find? (! fits content ·) with
  | some e => .error (.invalidRange document e.span (Text.size content))
  | none =>
    match clash? edits with
    | some (later, earlier) => .error (.overlap document earlier.span later.span.start)
    | none => .ok edits

/-- The text after one edit. -/
def applyTo (e : Edit) (content : List Char) : List Char :=
  Text.before e.span.start content ++ e.text.toList ++ Text.after e.span.stop content

/-- The mappings after one edit of the text. -/
def applyToMappings (e : Edit) (content : List Char) (m : Mappings) : Mappings :=
  let start := Position.ofOffset content e.span.start
  let stop := Position.ofOffset content e.span.stop
  m.applyEdit start stop (start.advance e.text.toList)

end Edit

/-- A text and its source map. -/
structure Mapped where
  content : String
  map : Option SourceMap := none
  deriving DecidableEq, Repr, Inhabited

namespace Mapped

/-- Applies edits that are in order and fit. -/
def applyAll : List Edit → List Char × Option Mappings → List Char × Option Mappings
  | [], state => state
  | e :: rest, (content, mappings) =>
    applyAll rest (e.applyTo content, mappings.map (e.applyToMappings content))

/-- Applies edits to a text and its source map. -/
def splice (document : String) (text : Mapped) (edits : List Edit) : Except Failure Mapped := do
  let edits ← Edit.check document text.content.toList edits
  let mappings ← match text.map with
    | none => pure none
    | some map => match Mappings.decode map.mappings with
      | .ok m => pure (some m)
      | .error problem => throw (.mappings problem)
  let (content, mappings) := applyAll edits (text.content.toList, mappings)
  let map := do return { ← text.map with mappings := (← mappings).encode }
  return ⟨.ofList content, map⟩

end Mapped

end Relabel
