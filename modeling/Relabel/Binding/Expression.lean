import Relabel.Binding.Basic
import Relabel.Text.Cut

/-!
# Expressions of bindings

An expression is a literal, a call of one method with literals and paths as arguments, or a path.
The suffixes `.*` and `.splices` watch a whole subtree and belong to no path.
-/

namespace Relabel

open Text

/-- The text after an opening quote is a string up to its end: the quote closes it, and after a
backslash comes any character but a line feed. -/
def stringBody (quote : Char) : List Char → Bool
  | [] => false
  | '\\' :: c :: cs => c != '\n' && stringBody quote cs
  | c :: cs => if c = quote then cs.isEmpty else c != '\\' && stringBody quote cs

/-- The text after an optional sign. -/
def skipSign : List Char → List Char
  | '+' :: cs => cs
  | '-' :: cs => cs
  | cs => cs

/-- Nothing or an exponent. -/
def exponentOrEnd : List Char → Bool
  | [] => true
  | c :: cs =>
    (c == 'e' || c == 'E') && !(skipSign cs).isEmpty && (skipSign cs).all isDigit

/-- A number without sign: digits with an optional fraction, or a fraction alone. -/
def unsignedNumber (cs : List Char) : Bool :=
  let rest := cs.dropWhile isDigit
  if cs.head?.any isDigit then
    match rest with
    | '.' :: fraction => exponentOrEnd (fraction.dropWhile isDigit)
    | rest => exponentOrEnd rest
  else
    match rest with
    | '.' :: fraction =>
      fraction.head?.any isDigit && exponentOrEnd (fraction.dropWhile isDigit)
    | _ => false

/-- Whether a text is a quoted string or a number. -/
def isLiteral (text : String) : Bool :=
  match text.toList with
  | '\'' :: cs => stringBody '\'' cs
  | '"' :: cs => stringBody '"' cs
  | cs => unsignedNumber (skipSign cs)

/-- Whether a character may start a part of a method name. -/
def startsName (c : Char) : Bool :=
  isAsciiLetter c || c == '_' || c == '$'

/-- Whether a character may stand in a part of a method name. -/
def continuesName (c : Char) : Bool :=
  isWord c || c == '$'

/-- The name and the argument list of a call: a dotted name, blanks, and a parenthesis that closes
at the very end. -/
def callParts? (cs : List Char) : Option (List Char × List Char) := do
  let ofName (c : Char) := continuesName c || c == '.'
  let name := cs.takeWhile ofName
  guard ((name.splitOn '.').all fun part => part.head?.any startsName)
  match trimStart (cs.dropWhile ofName) with
  | '(' :: inner => do
    guard (inner.getLast? = some ')')
    return (name, inner.dropLast)
  | _ => none

/-- Where a scan of arguments stands: outside quotes, inside, or just after a backslash inside. -/
inductive QuoteState where
  | outside
  | inside (quote : Char)
  | escaped (quote : Char)
  deriving DecidableEq, Repr

/-- The state after one more character. -/
def QuoteState.step (c : Char) : QuoteState → QuoteState
  | .outside => if c = '\'' ∨ c = '"' then .inside c else .outside
  | .inside q => if c = '\\' then .escaped q else if c = q then .outside else .inside q
  | .escaped q => .inside q

/-- The parts of a text between its commas outside quotes. -/
def commaParts (state : QuoteState) : List Char → List (List Char)
  | [] => [[]]
  | c :: cs =>
    if state = .outside ∧ c = ',' then [] :: commaParts .outside cs
    else
      match commaParts (state.step c) cs with
      | part :: parts => (c :: part) :: parts
      | [] => [[c]]

/-- Parts that are separated by one byte, trimmed and with their offsets; empty ones are left
out. -/
def locateParts (start : Nat) : List (List Char) → List Piece
  | [] => []
  | part :: parts =>
    let rest := locateParts (start + size part + 1) parts
    if (trim part).isEmpty then rest else Piece.trimmedAt start part :: rest

/-- The arguments of a list that starts at a byte offset. -/
def splitArguments (args : List Char) (start : Nat) : List Piece :=
  locateParts start (commaParts .outside args)

/-- A path without a suffix that watches its subtree. -/
def Piece.withoutSuffix (path : Piece) : Piece :=
  let cs := path.text.toList
  match stripSuffix? ".*".toList cs with
  | some stem => Piece.located path.span.start stem
  | none =>
    match stripSuffix? ".splices".toList cs with
    | some stem => Piece.located path.span.start stem
    | none => path

def Argument.ofPiece (p : Piece) : Argument :=
  if isLiteral p.text then .literal p else .path p.withoutSuffix

/-- What a trimmed expression is. -/
def Expression.ofPiece (p : Piece) : Expression :=
  let cs := p.text.toList
  if isLiteral p.text then .literal p
  else
    match callParts? cs with
    | some (name, args) =>
      let argsStart := p.span.start + (size cs - size args - 1)
      .call (Piece.located p.span.start name)
        ((splitArguments args argsStart).map Argument.ofPiece)
    | none => .path p.withoutSuffix

end Relabel
