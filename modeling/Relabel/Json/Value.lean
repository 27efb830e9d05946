/-!
# JSON values

Members keep their order and their repetitions, because a record may not name a field twice. A
string whose escapes spell no Unicode text has no text, and a number counts as an integer only if
it is written as one.
-/

namespace Relabel

/-- A JSON value as it is written. -/
inductive Json where
  | null
  | bool (value : Bool)
  | number (integer : Option Int)
  | string (text : Option String)
  | array (items : List Json)
  | object (members : List (Option String × Json))
  deriving Inhabited

end Relabel
