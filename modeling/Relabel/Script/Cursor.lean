import Relabel.Script.Numeral

/-!
# Cursors

A cursor stands on one token of a program. Whether a slash begins a regular expression and whether
a brace goes on with a template is known only to the grammar, so tokens are read one by one, and
the current one can be read again as either of the two.
-/

namespace Relabel.Script

/-- The token at the start of a text that begins with no gap. -/
def lexeme? (bound : Nat) : List Char → Option Lexeme
  | [] => some ⟨.stop, 0, []⟩
  | c :: cs =>
    if c.isDigit || (c == '.' && cs.head?.any Char.isDigit) then number? (c :: cs)
    else if c = '"' ∨ c = '\'' then string? c bound cs
    else if c = '`' then template? [] true 1 cs
    else if startsName c || c == '\\' || c == '#' then nameToken? bound (c :: cs)
    else mark? (c :: cs)

/-- A place in a program. -/
structure Cursor where
  token : Token
  start : Nat
  stop : Nat
  /-- Whether a line ends between the token before and this one. -/
  newline : Bool
  /-- Where the token before ends. -/
  last : Nat
  rest : List Char
  /-- The number of characters of the program, which bounds every repetition. -/
  bound : Nat
  deriving Repr

namespace Cursor

/-- The first token after an offset. -/
def reading (bound last offset : Nat) (part : GapPart) (cs : List Char) : Cursor :=
  let found : Option Cursor := do
    let gap ← gap? false offset part cs
    let l ← lexeme? bound gap.rest
    return ⟨l.token, gap.offset, gap.offset + l.size, gap.newline, last, l.rest, bound⟩
  found.getD ⟨.invalid, offset, offset, false, last, [], bound⟩

/-- The first token of a program; a first line that starts with `#!` is a comment. -/
def first : List Char → Cursor
  | '#' :: '!' :: cs => reading (cs.length + 2) 0 2 .lineComment cs
  | cs => reading cs.length 0 0 .blank cs

/-- The next token. -/
def next (c : Cursor) : Cursor :=
  reading c.bound c.stop c.stop .blank c.rest

/-- The cursor with its token read as another one. -/
def reread (c : Cursor) (l : Option Lexeme) : Cursor :=
  match l with
  | some l => { c with token := l.token, stop := c.start + l.size, rest := l.rest }
  | none => { c with token := .invalid }

/-- The token as the start of a regular expression, if it is a slash. -/
def asRegex (c : Cursor) : Cursor :=
  match c.token with
  | .mark "/" => c.reread (regex? c.rest)
  | .mark "/=" => c.reread (regex? ('=' :: c.rest))
  | _ => c

/-- The token as the continuation of a template, if it is a closing brace. -/
def asTemplate (c : Cursor) : Cursor :=
  if c.token = .mark closeBrace then c.reread (template? [] true 1 c.rest) else c

end Cursor

end Relabel.Script
