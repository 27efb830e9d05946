import Relabel.Script.Token
import Relabel.Text.Classes
import Relabel.Text.Hex

/-!
# Names

A name may spell its characters with `\u` escapes. The words below are no identifiers, however
they are spelled.
-/

namespace Relabel.Script

open Text

/-- Words that are never identifiers. -/
def reservedWords : List String :=
  ["break", "case", "catch", "class", "const", "continue", "debugger", "default", "delete", "do",
    "else", "enum", "export", "extends", "false", "finally", "for", "function", "if", "import",
    "in", "instanceof", "new", "null", "return", "super", "switch", "this", "throw", "true", "try",
    "typeof", "var", "void", "while", "with"]

/-- A character that may start a name. -/
def startsName (c : Char) : Bool :=
  isIdStart c || c == '$' || c == '_'

/-- A character that may continue a name; the two joiners may. -/
def continuesName (c : Char) : Bool :=
  isIdContinue c || c == '$' || c == '\u200c' || c == '\u200d'

/-- The code point of an escape whose `\u` has been read, the number of its characters and the
text after it. -/
def codePoint? : List Char → Option (Nat × Nat × List Char)
  | '{' :: cs => do
    let digits := cs.takeWhile (hexDigit? · |>.isSome)
    guard (!digits.isEmpty)
    let n ← hexNumber? digits
    guard (n ≤ 0x10ffff)
    match cs.drop digits.length with
    | '}' :: rest => return (n, digits.length + 2, rest)
    | _ => failure
  | a :: b :: c :: d :: rest => (hexNumber? [a, b, c, d]).map fun n => (n, 4, rest)
  | _ => none

/-- A name as it is read. -/
structure Spelled where
  chars : List Char
  size : Nat
  escaped : Bool
  rest : List Char

/-- A name with one more character before it. -/
def Spelled.cons (c : Char) (size : Nat) (escaped : Bool) (s : Spelled) : Spelled :=
  ⟨c :: s.chars, size + s.size, escaped || s.escaped, s.rest⟩

/-- The characters of a name that satisfy `ok`, those after the first `continuesName`. -/
def spelled? (ok : Char → Bool) : Nat → List Char → Option Spelled
  | _, [] => some ⟨[], 0, false, []⟩
  | 0, cs => some ⟨[], 0, false, cs⟩
  | fuel + 1, '\\' :: 'u' :: cs => do
    let (n, size, rest) ← codePoint? cs
    guard n.isValidChar
    guard (ok (Char.ofNat n))
    return (← spelled? continuesName fuel rest).cons (Char.ofNat n) (size + 2) true
  | fuel + 1, c :: cs =>
    if ok c then (spelled? continuesName fuel cs).map (·.cons c c.utf8Size false)
    else some ⟨[], 0, false, c :: cs⟩

/-- The name at the start of a text. -/
def name? (fuel : Nat) (cs : List Char) : Option Spelled := do
  let s ← spelled? startsName fuel cs
  guard (!s.chars.isEmpty)
  return s

/-- The name or private name at the start of a text. -/
def nameToken? (fuel : Nat) : List Char → Option Lexeme
  | '#' :: cs => (name? fuel cs).map fun s => ⟨.privateName (.ofList s.chars), s.size + 1, s.rest⟩
  | cs => (name? fuel cs).map fun s => ⟨.name (.ofList s.chars) s.escaped, s.size, s.rest⟩

end Relabel.Script
