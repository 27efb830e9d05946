import Relabel.Json.Value

/-!
# Records in JSON

A record is an object that names each known field at most once, or an array of the fields in
order, of which the last ones may be missing. Unknown members are passed over.
-/

namespace Relabel.Json

/-- The fields that a record gives. -/
abbrev Fields := List (String × Json)

/-- The members of a record whose names are known; `none` if a name has no text or comes twice. -/
def knownMembers (names : List String) : Fields → List (Option String × Json) → Option Fields
  | done, [] => some done
  | _, (none, _) :: _ => none
  | done, (some name, v) :: rest =>
    if !names.contains name then knownMembers names done rest
    else if (done.lookup name).isSome then none
    else knownMembers names ((name, v) :: done) rest

/-- The fields of a record with the given field names, in order. -/
def fields? (names : List String) : Json → Option Fields
  | .object members => knownMembers names [] members
  | .array items => if items.length ≤ names.length then some (names.zip items) else none
  | _ => none

/-- A field that has to be there. -/
def required {α : Type} (fields : Fields) (name : String) (decode : Json → Option α) :
    Option α := do
  decode (← fields.lookup name)

/-- A field that may be missing. -/
def optional {α : Type} (fields : Fields) (name : String) (default : α)
    (decode : Json → Option α) : Option α :=
  match fields.lookup name with
  | some v => decode v
  | none => some default

/-- A value that may be `null`. -/
def nullable {α : Type} (decode : Json → Option α) : Json → Option (Option α)
  | .null => some none
  | v => (decode v).map some

def toText? : Json → Option String
  | .string text => text
  | _ => none

def toBool? : Json → Option Bool
  | .bool b => some b
  | _ => none

/-- An integer from zero up to a bound. -/
def toNat? (bound : Nat) : Json → Option Nat
  | .number (some n) => if 0 ≤ n ∧ n < bound then some n.toNat else none
  | _ => none

/-- An integer of 32 bits without sign. -/
def toWord? : Json → Option Nat :=
  toNat? UInt32.size

def toList? {α : Type} (decode : Json → Option α) : Json → Option (List α)
  | .array items => items.mapM decode
  | _ => none

/-- Puts a value under a key, in place of the one that is there. -/
def put {α : Type} (key : String) (value : α) : List (String × α) → List (String × α)
  | [] => [(key, value)]
  | (k, v) :: rest => if k = key then (k, value) :: rest else (k, v) :: put key value rest

/-- A map from names; of a name that comes twice the last value counts. -/
def toMap? {α : Type} (decode : Json → Option α) : Json → Option (List (String × α))
  | .object members =>
    members.foldlM (fun map (key, v) => do return put (← key) (← decode v) map) []
  | _ => none

end Relabel.Json
