import Relabel.Decimal.Double
import Relabel.Text.Cut

/-!
# Script tokens

The tokens of a program. Keywords are names: whether a name is a keyword depends on where it
stands. Of two marks that begin alike the longer one is taken.
-/

namespace Relabel.Script

inductive Token where
  /-- A name or keyword; a keyword may not be spelled with escapes. -/
  | name (text : String) (escaped : Bool)
  | privateName (text : String)
  | mark (text : String)
  | number (value : Decimal.Double)
  | bigint (text : String)
  | string (text : String)
  /-- A part of a template as it is written; it is the last part or an expression follows. -/
  | template (raw : String) (valid isLast : Bool)
  | regex (text : String)
  /-- Text that is no token. -/
  | invalid
  /-- The end of the program. -/
  | stop
  deriving DecidableEq, Repr, Inhabited

/-- A token, the number of its bytes, and the text after it. -/
structure Lexeme where
  token : Token
  size : Nat
  rest : List Char
  deriving Repr

/-- What opens and closes blocks and objects. -/
def openBrace : String := "\x7b"

@[inherit_doc openBrace]
def closeBrace : String := "\x7d"

/-- The marks, none after one that it begins with. -/
def marks : List String :=
  [">>>=", "...", "===", "!==", "**=", "<<=", ">>=", ">>>", "&&=", "||=", "??=", "=>", "==", "!=",
    "<=", ">=", "&&", "||", "??", "?.", "++", "--", "+=", "-=", "*=", "/=", "%=", "&=", "|=", "^=",
    "<<", ">>", "**", openBrace, closeBrace, "(", ")", "[", "]", ";", ",", "<", ">", "+", "-", "*",
    "/", "%", "&", "|", "^", "!", "~", "?", ":", "=", ".", "@"]

/-- Whether a mark may stand before a text: `?.` is no mark before a digit. -/
def marksOff (mark : String) : List Char → Bool
  | c :: _ => !(mark == "?." && c.isDigit)
  | [] => true

/-- The mark at the start of a text. -/
def mark? (cs : List Char) : Option Lexeme :=
  marks.findSome? fun mark =>
    match Text.stripPrefix? mark.toList cs with
    | some rest => if marksOff mark rest then some ⟨.mark mark, mark.length, rest⟩ else none
    | none => none

end Relabel.Script
