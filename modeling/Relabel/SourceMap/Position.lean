import Relabel.Text.Span

/-!
# Positions in generated text

A line and a column counted from zero, the column in UTF-16 units. Both are words of 32 bits.
-/

namespace Relabel

/-- A line and a UTF-16 column, counted from zero. -/
structure Position where
  line : UInt32
  column : UInt32
  deriving DecidableEq, Repr, Inhabited

namespace Position

/-- The UTF-16 units of a character. -/
def units (c : Char) : Nat :=
  if c.toNat < 0x10000 then 1 else 2

/-- The UTF-16 units of a text. -/
def width : List Char → Nat
  | [] => 0
  | c :: cs => units c + width cs

/-- The number of line breaks in a text. -/
def breaks (cs : List Char) : Nat :=
  cs.count '\n'

/-- The text after the last line break. -/
def lastLine (cs : List Char) : List Char :=
  (cs.reverse.takeWhile (· != '\n')).reverse

/-- The position at the end of a text that starts a document. -/
def ofText (cs : List Char) : Position :=
  ⟨.ofNat (breaks cs), .ofNat (width (lastLine cs))⟩

/-- The position of a byte offset; past the end it is the end. -/
def ofOffset (text : List Char) (offset : Nat) : Position :=
  ofText (Text.before offset text)

/-- The position reached when a text is written at `p`. -/
def advance (p : Position) (cs : List Char) : Position :=
  if cs.contains '\n' then ⟨p.line + .ofNat (breaks cs), .ofNat (width (lastLine cs))⟩
  else ⟨p.line, p.column + .ofNat (width cs)⟩

/-- Text order. -/
instance : LT Position where
  lt p q := p.line < q.line ∨ p.line = q.line ∧ p.column < q.column

/-- Text order. -/
instance : LE Position where
  le p q := p.line < q.line ∨ p.line = q.line ∧ p.column ≤ q.column

instance (p q : Position) : Decidable (p < q) :=
  inferInstanceAs (Decidable (p.line < q.line ∨ p.line = q.line ∧ p.column < q.column))

instance (p q : Position) : Decidable (p ≤ q) :=
  inferInstanceAs (Decidable (p.line < q.line ∨ p.line = q.line ∧ p.column ≤ q.column))

end Position

end Relabel
