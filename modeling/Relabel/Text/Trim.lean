import Relabel.Text.Classes
import Relabel.Text.Span

/-!
# Trimming

Blanks at the two ends of a text. `lead` is the number of bytes that trimming takes off the
front, by which spans of trimmed texts move.
-/

namespace Relabel.Text

/-- A text without the blanks at its start. -/
def trimStart (cs : List Char) : List Char :=
  cs.dropWhile isBlank

/-- A text without the blanks at its end. -/
def trimEnd (cs : List Char) : List Char :=
  (cs.reverse.dropWhile isBlank).reverse

/-- A text without the blanks at its two ends. -/
def trim (cs : List Char) : List Char :=
  trimEnd (trimStart cs)

/-- The bytes of the blanks at the start of a text. -/
def lead (cs : List Char) : Nat :=
  size (cs.takeWhile isBlank)

end Relabel.Text
