import Relabel.Text.Classes

/-!
# Hyphenated and camel-cased names

`camelCase` turns an attribute name into a property name and `hyphenate` goes back. A hyphen is
absorbed by the lower-case ASCII letter after it; before anything else but a hyphen it stays.
-/

namespace Relabel.Text

/-- Camel-casing of the rest of a name, where `pending` says that a hyphen was read just before. -/
def camelFrom (pending : Bool) : List Char → List Char
  | [] => if pending then ['-'] else []
  | c :: cs =>
    if c = '-' then camelFrom true cs
    else if pending && 'a' ≤ c && c ≤ 'z' then upperAscii c :: camelFrom false cs
    else if pending then '-' :: c :: camelFrom false cs
    else c :: camelFrom false cs

/-- The property that a hyphenated attribute name stands for: `data-foo` is `dataFoo`. -/
def camelCase (s : String) : String :=
  .ofList (camelFrom false s.toList)

/-- One character of a hyphenated name. -/
def hyphenateChar (c : Char) : List Char :=
  if 'A' ≤ c && c ≤ 'Z' then ['-', lowerAscii c] else [c]

/-- The attribute name of a property: `dataFoo` is `data-foo`. -/
def hyphenate (s : String) : String :=
  .ofList (s.toList.flatMap hyphenateChar)

/-- The name up to the first dot. -/
def leadingSegment (path : String) : String :=
  .ofList (path.toList.takeWhile (· != '.'))

end Relabel.Text
