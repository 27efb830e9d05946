import Relabel.Text.Classes

/-!
# Gaps between tokens

Blanks, line ends and comments. Whether a gap contains a line end matters, because some tokens may
not stand on a line of their own and a missing semicolon is accepted at a line end.
-/

namespace Relabel.Script

/-- A character that ends a line. -/
def isLineEnd (c : Char) : Bool :=
  c == '\n' || c == '\r' || c == '\u2028' || c == '\u2029'

/-- A blank that ends no line. -/
def isBlank (c : Char) : Bool :=
  (Text.isBlank c && !isLineEnd c) || c == '\u200b' || c == '\ufeff'

/-- What a character of a gap stands in. -/
inductive GapPart where
  | blank
  | lineComment
  | blockComment
  deriving DecidableEq, Repr

/-- The end of a gap: whether a line ended in it, the offset after it and the text after it. -/
structure Gap where
  newline : Bool
  offset : Nat
  rest : List Char

/-- The gap at the start of a text; `none` if a comment does not end. -/
def gap? (newline : Bool) (offset : Nat) : GapPart → List Char → Option Gap
  | .blockComment, [] => none
  | _, [] => some ⟨newline, offset, []⟩
  | .blank, '/' :: '/' :: cs => gap? newline (offset + 2) .lineComment cs
  | .blank, '/' :: '*' :: cs => gap? newline (offset + 2) .blockComment cs
  | .blockComment, '*' :: '/' :: cs => gap? newline (offset + 2) .blank cs
  | .blank, c :: cs =>
    if isLineEnd c then gap? true (offset + c.utf8Size) .blank cs
    else if isBlank c then gap? newline (offset + c.utf8Size) .blank cs
    else some ⟨newline, offset, c :: cs⟩
  | .lineComment, c :: cs =>
    if isLineEnd c then gap? true (offset + c.utf8Size) .blank cs
    else gap? newline (offset + c.utf8Size) .lineComment cs
  | .blockComment, c :: cs =>
    gap? (newline || isLineEnd c) (offset + c.utf8Size) .blockComment cs

end Relabel.Script
