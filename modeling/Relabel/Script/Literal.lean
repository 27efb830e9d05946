import Relabel.Script.Gap
import Relabel.Script.Name
import Relabel.Text.Span

/-!
# Strings, templates and regular expressions

A string is read as code points, because its escapes can spell halves of surrogate pairs. Of
templates only their parts are read, and of regular expressions only where they end.
-/

namespace Relabel.Script

open Text

/-- Half of a surrogate pair. -/
def isSurrogate (n : Nat) : Bool :=
  0xd800 ≤ n && n < 0xe000

/-- The first half of a surrogate pair. -/
def isHighSurrogate (n : Nat) : Bool :=
  0xd800 ≤ n && n < 0xdc00

/-- The second half of a surrogate pair. -/
def isLowSurrogate (n : Nat) : Bool :=
  0xdc00 ≤ n && n < 0xe000

/-- A digit below eight. -/
def isOctal (c : Char) : Bool :=
  '0' ≤ c && c ≤ '7'

/-- The value of decimal or octal digits. -/
def digitsValue (base : Nat) (digits : List Char) : Nat :=
  digits.foldl (fun n c => n * base + (c.toNat - 48)) 0

/-- What an escape stands for, the number of its bytes after the backslash, and the text after it.
A line continuation stands for nothing. -/
structure Escape where
  points : List Nat
  size : Nat
  rest : List Char

/-- An escape whose `\u` has been read; two escapes may spell the halves of one pair. -/
def unicodeEscape? (cs : List Char) : Option Escape := do
  let (n, size, rest) ← codePoint? cs
  let single : Escape := ⟨[n], size + 1, rest⟩
  match rest with
  | '\\' :: 'u' :: a :: b :: c :: d :: rest =>
    match hexNumber? [a, b, c, d] with
    | some low =>
      if isHighSurrogate n && size = 4 && isLowSurrogate low then
        return ⟨[0x10000 + (n - 0xd800) * 0x400 + (low - 0xdc00)], 11, rest⟩
      else return single
    | none => return single
  | _ => return single

/-- The character of an escape of one letter. -/
def controlEscape (c : Char) : Char :=
  match c with
  | 'b' => '\x08'
  | 'f' => '\x0c'
  | 'n' => '\n'
  | 'r' => '\r'
  | 't' => '\t'
  | 'v' => '\x0b'
  | c => c

/-- An escape whose backslash has been read. -/
def escape? : List Char → Option Escape
  | '\r' :: '\n' :: rest => some ⟨[], 2, rest⟩
  | 'x' :: cs =>
    match cs with
    | a :: b :: rest => (hexNumber? [a, b]).map fun n => ⟨[n], 3, rest⟩
    | _ => none
  | 'u' :: cs => unicodeEscape? cs
  | c :: cs =>
    if isLineEnd c then some ⟨[], c.utf8Size, cs⟩
    else if isOctal c then
      let digits := ((c :: cs).take (if c ≤ '3' then 3 else 2)).takeWhile isOctal
      some ⟨[digitsValue 8 digits], digits.length, (c :: cs).drop digits.length⟩
    else some ⟨[(controlEscape c).toNat], c.utf8Size, cs⟩
  | [] => none

/-- The code points up to the closing quote. -/
def stringPoints? (quote : Char) : Nat → List Char → Option Escape
  | fuel + 1, '\\' :: cs => do
    let e ← escape? cs
    let more ← stringPoints? quote fuel e.rest
    return ⟨e.points ++ more.points, 1 + e.size + more.size, more.rest⟩
  | fuel + 1, c :: cs =>
    if c = quote then some ⟨[], 1, cs⟩
    else if c = '\n' ∨ c = '\r' then none
    else do
      let more ← stringPoints? quote fuel cs
      return ⟨c.toNat :: more.points, c.utf8Size + more.size, more.rest⟩
  | _, _ => none

/-- The text of code points. If a half of a surrogate pair stands alone, it is written as the
replacement character and its four digits, and so is then the replacement character. -/
def pointsText (points : List Nat) : String :=
  let lossy (n : Nat) : List Char :=
    if isSurrogate n || n = 0xfffd then '\ufffd' :: hexUnit n else [Char.ofNat n]
  .ofList (if points.any isSurrogate then points.flatMap lossy else points.map Char.ofNat)

/-- A string whose opening quote has been read. -/
def string? (quote : Char) (fuel : Nat) (cs : List Char) : Option Lexeme :=
  (stringPoints? quote fuel cs).map fun e => ⟨.string (pointsText e.points), 1 + e.size, e.rest⟩

/-- Whether the escape after a backslash has a meaning in a template: no octal digits. -/
def templateEscapeOk : List Char → Bool
  | '0' :: c :: _ => !c.isDigit
  | ['0'] => true
  | c :: cs => !c.isDigit && (escape? (c :: cs)).isSome
  | [] => false

/-- The part of a template whose text `raw`, last character first, has been read; `size` counts
what has been read. -/
def template? (raw : List Char) (valid : Bool) (size : Nat) : List Char → Option Lexeme
  | [] => none
  | '`' :: rest => some ⟨.template (.ofList raw.reverse) valid true, size + 1, rest⟩
  | '$' :: '{' :: rest => some ⟨.template (.ofList raw.reverse) valid false, size + 2, rest⟩
  | '\\' :: c :: cs =>
    template? (c :: '\\' :: raw) (valid && templateEscapeOk (c :: cs)) (size + 1 + c.utf8Size) cs
  | c :: cs => template? (c :: raw) valid (size + c.utf8Size) cs

/-- The body of a regular expression up to its slash; a slash between brackets does not count. -/
def regexBody? (bracketed : Bool) : List Char → Option (List Char × List Char)
  | [] => none
  | '\\' :: c :: cs =>
    if isLineEnd c then none
    else (regexBody? bracketed cs).map fun (body, rest) => ('\\' :: c :: body, rest)
  | c :: cs =>
    if isLineEnd c then none
    else if c = '/' && !bracketed then some ([], cs)
    else
      let bracketed := if c = '[' then true else if c = ']' then false else bracketed
      (regexBody? bracketed cs).map fun (body, rest) => (c :: body, rest)

/-- The flags of a regular expression: known letters, each once. -/
def flagsOk (flags : List Char) : Bool :=
  decide flags.Nodup && flags.all ['d', 'g', 'i', 'm', 's', 'u', 'v', 'y'].contains

/-- A regular expression whose first slash has been read. -/
def regex? (cs : List Char) : Option Lexeme := do
  let (body, rest) ← regexBody? false cs
  guard (!body.isEmpty)
  let flags := rest.takeWhile continuesName
  let rest := rest.drop flags.length
  guard (flagsOk flags)
  guard (rest.head? != some '\\')
  return ⟨.regex (.ofList ('/' :: body ++ '/' :: flags)), 2 + size body + flags.length, rest⟩

end Relabel.Script
