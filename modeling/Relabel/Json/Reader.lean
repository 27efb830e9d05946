import Relabel.Json.Value
import Relabel.Text.Cut
import Relabel.Text.Hex

/-!
# Reading JSON

Strict JSON: no comments, no trailing commas, no leading zeros, no raw control characters, nothing
but blanks after the value. `Json.read?` is the whole of the interface; each reader below takes the
text that is left and returns what it read together with what follows.
-/

namespace Relabel.Json

open Text

/-- The four blanks of JSON. -/
def isBlank (c : Char) : Bool :=
  c == ' ' || c == '\n' || c == '\t' || c == '\r'

/-- The text after the blanks at its start. -/
def skipBlanks (cs : List Char) : List Char :=
  cs.dropWhile isBlank

/-- The character of a single-letter escape. -/
def escapeChar? : Char → Option Char
  | '"' => some '"'
  | '\\' => some '\\'
  | '/' => some '/'
  | 'b' => some '\x08'
  | 'f' => some '\x0c'
  | 'n' => some '\n'
  | 'r' => some '\r'
  | 't' => some '\t'
  | _ => none

/-- One piece of a string: a character, or a UTF-16 unit that was escaped. -/
inductive Piece where
  | char (c : Char)
  | unit (n : Nat)

/-- The pieces up to the closing quote, last first. -/
def pieces (done : List Piece) : List Char → Option (List Piece × List Char)
  | [] => none
  | '"' :: rest => some (done, rest)
  | '\\' :: 'u' :: a :: b :: c :: d :: rest => do
    let n ← hexNumber? [a, b, c, d]
    pieces (.unit n :: done) rest
  | '\\' :: e :: rest => do
    let c ← escapeChar? e
    pieces (.char c :: done) rest
  | c :: rest => if c == '\\' || c.toNat < 32 then none else pieces (.char c :: done) rest

/-- The text of pieces that come last first; `low` is the unit of a pair whose other half is still
to come. -/
def textOf (text : List Char) (low : Option Nat) : List Piece → Option (List Char)
  | [] => if low.isSome then none else some text
  | .char c :: rest => if low.isSome then none else textOf (c :: text) none rest
  | .unit n :: rest =>
    match low with
    | some l =>
      if 0xd800 ≤ n && n < 0xdc00 then
        textOf (Char.ofNat (0x10000 + (n - 0xd800) * 0x400 + (l - 0xdc00)) :: text) none rest
      else none
    | none =>
      if 0xdc00 ≤ n && n < 0xe000 then textOf text (some n) rest
      else if 0xd800 ≤ n && n < 0xdc00 then none
      else textOf (Char.ofNat n :: text) none rest

/-- A string whose opening quote has been read. -/
def string? (cs : List Char) : Option (Option String × List Char) := do
  let (ps, rest) ← pieces [] cs
  return ((textOf [] none ps).map .ofList, rest)

/-- One digit or more. -/
def digits? (cs : List Char) : Option (List Char × List Char) :=
  let ds := cs.takeWhile Char.isDigit
  if ds.isEmpty then none else some (ds, cs.dropWhile Char.isDigit)

/-- The text after an optional fraction, and whether there was one. -/
def fraction? : List Char → Option (Bool × List Char)
  | '.' :: rest => (digits? rest).map fun (_, rest) => (true, rest)
  | rest => some (false, rest)

/-- The text after an optional exponent, and whether there was one. -/
def exponent? : List Char → Option (Bool × List Char)
  | c :: rest =>
    if c == 'e' || c == 'E' then
      let rest := match rest with
        | '+' :: r => r
        | '-' :: r => r
        | r => r
      (digits? rest).map fun (_, rest) => (true, rest)
    else some (false, c :: rest)
  | [] => some (false, [])

/-- A number. Minus zero is no integer. -/
def number? (cs : List Char) : Option (Json × List Char) := do
  let (negative, cs) := match cs with
    | '-' :: rest => (true, rest)
    | rest => (false, rest)
  let (ds, cs) ← digits? cs
  guard (ds.length = 1 || ds.head? != some '0')
  let (fraction, cs) ← fraction? cs
  let (exponent, cs) ← exponent? cs
  let n : Nat := ds.foldl (fun n c => n * 10 + (c.toNat - 48)) 0
  let integer : Option Int :=
    if fraction || exponent || (negative && n == 0) then none
    else some (if negative then -n else n)
  return (.number integer, cs)

mutual

/-- A value and the text after it; every nested value and every item takes one unit of fuel. -/
def value? : Nat → List Char → Option (Json × List Char)
  | 0, _ => none
  | fuel + 1, cs =>
    match skipBlanks cs with
    | 'n' :: cs => (stripPrefix? ['u', 'l', 'l'] cs).map fun cs => (.null, cs)
    | 't' :: cs => (stripPrefix? ['r', 'u', 'e'] cs).map fun cs => (.bool true, cs)
    | 'f' :: cs => (stripPrefix? ['a', 'l', 's', 'e'] cs).map fun cs => (.bool false, cs)
    | '"' :: cs => (string? cs).map fun (s, cs) => (.string s, cs)
    | '[' :: cs =>
      match skipBlanks cs with
      | ']' :: cs => some (.array [], cs)
      | cs => items? fuel [] cs
    | '{' :: cs =>
      match skipBlanks cs with
      | '}' :: cs => some (.object [], cs)
      | cs => members? fuel [] cs
    | cs => number? cs

/-- The items of an array up to its closing bracket. -/
def items? : Nat → List Json → List Char → Option (Json × List Char)
  | 0, _, _ => none
  | fuel + 1, done, cs => do
    let (v, cs) ← value? fuel cs
    match skipBlanks cs with
    | ',' :: cs => items? fuel (v :: done) cs
    | ']' :: cs => return (.array (v :: done).reverse, cs)
    | _ => none

/-- The members of an object up to its closing brace. -/
def members? : Nat → List (Option String × Json) → List Char → Option (Json × List Char)
  | 0, _, _ => none
  | fuel + 1, done, cs =>
    match skipBlanks cs with
    | '"' :: cs => do
      let (key, cs) ← string? cs
      match skipBlanks cs with
      | ':' :: cs => do
        let (v, cs) ← value? fuel cs
        match skipBlanks cs with
        | ',' :: cs => members? fuel ((key, v) :: done) cs
        | '}' :: cs => return (.object ((key, v) :: done).reverse, cs)
        | _ => none
      | _ => none
    | _ => none

end

/-- The value that a text spells, if the text is JSON. -/
def read? (text : String) : Option Json := do
  let cs := text.toList
  let (v, rest) ← value? (2 * cs.length + 2) cs
  guard (skipBlanks rest).isEmpty
  return v

end Relabel.Json
