import Relabel.SourceMap.Position
import Relabel.SourceMap.Vlq

/-!
# Mappings

Decoded mappings: for every line of generated text the segments that start on it. Segments are
written as differences, of which all but the column run on over the lines.
-/

namespace Relabel

/-- Where a segment comes from. -/
structure Origin where
  source : UInt32
  line : UInt32
  column : UInt32
  name : Option UInt32
  deriving DecidableEq, Repr, Inhabited

/-- A stretch of generated text, by the column of its start. -/
structure Segment where
  column : UInt32
  origin : Option Origin
  deriving DecidableEq, Repr, Inhabited

/-- The segments of each line. -/
structure Mappings where
  lines : List (List Segment)
  deriving DecidableEq, Repr, Inhabited

namespace Mappings

/-- The values that differences are taken from. -/
structure Running where
  source : Int := 0
  line : Int := 0
  column : Int := 0
  name : Int := 0
  deriving DecidableEq, Repr

/-- A value that fits a word of 32 bits. -/
def word (value : Int) (field : String) : Except MappingProblem UInt32 :=
  if 0 ≤ value ∧ value < UInt32.size then .ok (.ofNat value.toNat) else .error (.outOfRange field)

/-- An origin, from the running values with its differences added. -/
def origin (run : Running) (named : Bool) : Except MappingProblem Origin := do
  let name ← if named then (word run.name "name index").map some else .ok none
  return {
    source := ← word run.source "source index"
    line := ← word run.line "original line"
    column := ← word run.column "original column"
    name }

/-- One segment after another on the line, from the column reached so far. -/
def decodeSegments (run : Running) (column : Int) :
    List (List Char) → Except MappingProblem (List Segment × Running)
  | [] => .ok ([], run)
  | raw :: rest => do
    let fields ← Vlq.decode raw
    let column := column + fields.headD 0
    let (origin, run) ← match fields with
      | [_] => pure (none, run)
      | [_, s, l, c] =>
        let run := { run with
          source := run.source + s, line := run.line + l, column := run.column + c }
        pure (some (← origin run false), run)
      | [_, s, l, c, n] =>
        let run := { run with
          source := run.source + s, line := run.line + l, column := run.column + c
          name := run.name + n }
        pure (some (← origin run true), run)
      | _ => throw (.fieldCount (.ofList raw) fields.length)
    let segment : Segment := ⟨← word column "generated column", origin⟩
    let (segments, run) ← decodeSegments run column rest
    return (segment :: segments, run)

/-- One line after another. -/
def decodeLines (run : Running) : List (List Char) → Except MappingProblem (List (List Segment))
  | [] => .ok []
  | line :: rest => do
    let (segments, run) ← decodeSegments run 0 ((line.splitOn ',').filter (! ·.isEmpty))
    return segments :: (← decodeLines run rest)

/-- The mappings that a text encodes. -/
def decode (text : String) : Except MappingProblem Mappings :=
  (decodeLines {} (text.toList.splitOn ';')).map Mappings.mk

/-- The text of a segment after the column and the origin before it. -/
def encodeSegment (run : Running) (column : Int) (s : Segment) : List Char × Running :=
  let head := Vlq.encode (s.column.toNat - column)
  match s.origin with
  | none => (head, run)
  | some o =>
    let body := head ++ Vlq.encode (o.source.toNat - run.source)
      ++ Vlq.encode (o.line.toNat - run.line) ++ Vlq.encode (o.column.toNat - run.column)
    let next : Running := ⟨o.source.toNat, o.line.toNat, o.column.toNat, run.name⟩
    match o.name with
    | none => (body, next)
    | some n => (body ++ Vlq.encode (n.toNat - run.name), { next with name := n.toNat })

/-- The texts of the segments of a line. -/
def encodeSegments (run : Running) (column : Int) : List Segment → List (List Char) × Running
  | [] => ([], run)
  | s :: rest =>
    let (text, run) := encodeSegment run column s
    let (texts, run) := encodeSegments run s.column.toNat rest
    (text :: texts, run)

/-- The texts of the lines. -/
def encodeLines (run : Running) : List (List Segment) → List (List Char)
  | [] => []
  | line :: rest =>
    let (texts, run) := encodeSegments run 0 line
    [','].intercalate texts :: encodeLines run rest

/-- The text of mappings. -/
def encode (m : Mappings) : String :=
  .ofList ([';'].intercalate (encodeLines {} m.lines))

/-- Where a segment at `p` is after the text from `start` to `stop` was replaced by one that ends at
`newStop`; a segment strictly inside the replaced text is gone. -/
def shift? (start stop newStop p : Position) : Option Position :=
  if p ≤ start then some p
  else if p < stop then none
  else if p.line = stop.line then some ⟨newStop.line, p.column - stop.column + newStop.column⟩
  else some ⟨p.line - stop.line + newStop.line, p.column⟩

/-- The segments with their positions, line by line. -/
def placed (line : Nat) : List (List Segment) → List (Position × Segment)
  | [] => []
  | segments :: rest =>
    segments.map (fun s => (⟨.ofNat line, s.column⟩, s)) ++ placed (line + 1) rest

/-- The segments after one at `column`, each column once: the first segment of a column stays. -/
def distinctAfter (column : UInt32) : List Segment → List Segment
  | [] => []
  | s :: rest => if s.column = column then distinctAfter column rest
    else s :: distinctAfter s.column rest

/-- Segments with each column once. -/
def distinct : List Segment → List Segment
  | [] => []
  | s :: rest => s :: distinctAfter s.column rest

/-- The segments that were moved to a line, in order of column. -/
def lineOf (moved : List (Position × Segment)) (line : Nat) : List Segment :=
  let here := moved.filterMap fun (p, s) =>
    if p.line.toNat = line then some { s with column := p.column } else none
  distinct (here.mergeSort fun a b => a.column ≤ b.column)

/-- The number of lines after an edit, before any line that a segment needs. -/
def lineCount (count : Nat) (start stop newStop : Position) : Nat :=
  if count = 0 then 0
  else
    let removed := (stop.line - start.line).toNat
    let added := (newStop.line - start.line).toNat
    (max 1 ((count : Int) - removed + added)).toNat

/-- The mappings after the text from `start` to `stop` was replaced by one that ends at
`newStop`. -/
def applyEdit (m : Mappings) (start stop newStop : Position) : Mappings :=
  let moved := (placed 0 m.lines).filterMap fun (p, s) =>
    (shift? start stop newStop p).map fun q => (q, s)
  let needed := moved.foldl (fun n (p, _) => max n (p.line.toNat + 1)) 0
  let count := max (lineCount m.lines.length start stop newStop) needed
  ⟨(List.range count).map (lineOf moved)⟩

end Mappings

end Relabel
