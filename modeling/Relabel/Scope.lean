import Relabel.Schema
import Relabel.Text.Spelling

/-!
# Scopes

The names that a template expression can see: the variables of the loops around it, innermost
first, then the properties of the component that owns the template. The component is always there,
so a scope is the component together with the list of open loops.
-/

namespace Relabel

/-- Which of its two variables a loop gives a name to. -/
inductive LoopRole where
  | item
  | index
  deriving DecidableEq, Repr, Inhabited

/-- A name that a loop introduces. -/
structure LoopVariable where
  name : String
  /-- No name was given, so this is the standard one. -/
  isDefault : Bool
  renameable : Bool
  deriving DecidableEq, Repr, Inhabited

/-- The two names that a loop introduces. -/
structure Frame where
  item : LoopVariable
  index : LoopVariable
  deriving DecidableEq, Repr, Inhabited

/-- The variable of a loop that a name stands for; the item comes before the index. -/
def Frame.bound? (f : Frame) (name : String) : Option (LoopRole × LoopVariable) :=
  if f.item.name = name then some (.item, f.item)
  else if f.index.name = name then some (.index, f.index)
  else none

/-- What a path refers to. -/
inductive Resolution where
  /-- A property of the component. -/
  | component (name : String) (renameable : Bool) (owner : String)
  /-- A variable of the loop at a depth, counted from one outside. -/
  | loop (name : String) (role : LoopRole) (bound : LoopVariable) (depth : Nat)
  deriving DecidableEq, Repr

/-- The tag, the schema and the open loops, innermost first. -/
structure Scope where
  owner : String
  schema : Option Schema
  frames : List Frame := []
  deriving Repr, Inhabited

namespace Scope

/-- The number of open loops. -/
def depth (s : Scope) : Nat :=
  s.frames.length

/-- The scope inside a loop. -/
def enter (s : Scope) (f : Frame) : Scope :=
  { s with frames := f :: s.frames }

/-- The innermost loop and the scope around it; the component is never left. -/
def leave? (s : Scope) : Option (Frame × Scope) :=
  match s.frames with
  | [] => none
  | f :: frames => some (f, { s with frames })

/-- The variable of the innermost loop that knows a name, with the depth of that loop. -/
def innermost? (name : String) : List Frame → Option (LoopRole × LoopVariable × Nat)
  | [] => none
  | f :: frames =>
    match f.bound? name with
    | some (role, v) => some (role, v, frames.length + 1)
    | none => innermost? name frames

/-- What a path refers to, by the part before its first dot. -/
def lookup (s : Scope) (path : String) : Option Resolution :=
  let name := Text.leadingSegment path
  match innermost? name s.frames with
  | some (role, v, depth) => some (.loop path role v depth)
  | none => do
    let schema ← s.schema
    let property ← schema.property? name
    return .component path property.renameable s.owner

/-- Whether a method of the component may be renamed, if it has the method. -/
def methodRenameable? (s : Scope) (path : String) : Option Bool := do
  (← s.schema).methodRenameable? (Text.leadingSegment path)

end Scope

end Relabel
