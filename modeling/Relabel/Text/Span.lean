/-!
# Byte offsets

Positions in a text are byte offsets into its UTF-8 form. A text is cut as a list of characters
that carries the offset along, so that every span is tied to a split `before ++ middle ++ after`.
Reading counts bytes exactly; the ends of a span are kept as words of 32 bits, so the span of what
stands behind the last word has come round (`Span.ofOffsets`).
-/

namespace Relabel

/-- The bytes from `start` up to `stop`. -/
structure Span where
  start : Nat
  stop : Nat
  deriving DecidableEq, Repr, Inhabited

namespace Span

/-- The span between two byte offsets, each taken as a word. -/
def ofOffsets (start stop : Nat) : Span :=
  ⟨start % UInt32.size, stop % UInt32.size⟩

/-- Both ends of a span are words. -/
def IsShort (s : Span) : Prop :=
  s.start < UInt32.size ∧ s.stop < UInt32.size

instance (s : Span) : Decidable s.IsShort :=
  inferInstanceAs (Decidable (_ ∧ _))

theorem isShort_ofOffsets (start stop : Nat) : (ofOffsets start stop).IsShort :=
  ⟨Nat.mod_lt _ (by decide), Nat.mod_lt _ (by decide)⟩

/-- Offsets that have words of their own are kept as they are. -/
theorem ofOffsets_of_lt {start stop : Nat} (hle : start ≤ stop) (h : stop < UInt32.size) :
    ofOffsets start stop = ⟨start, stop⟩ := by
  rw [ofOffsets, Nat.mod_eq_of_lt h, Nat.mod_eq_of_lt (Nat.lt_of_le_of_lt hle h)]

end Span

namespace Text

/-- The number of bytes of a text. -/
def size : List Char → Nat
  | [] => 0
  | c :: cs => c.utf8Size + size cs

@[simp] theorem size_nil : size [] = 0 := rfl

@[simp] theorem size_cons (c : Char) (cs : List Char) : size (c :: cs) = c.utf8Size + size cs := rfl

@[simp] theorem size_append (a b : List Char) : size (a ++ b) = size a + size b := by
  induction a with
  | nil => simp
  | cons c a ih => simp [ih, Nat.add_assoc]

/-- Splits a text at a byte offset; `none` inside a character or past the end. -/
def split? : Nat → List Char → Option (List Char × List Char)
  | 0, cs => some ([], cs)
  | _ + 1, [] => none
  | n + 1, c :: cs =>
    if c.utf8Size ≤ n + 1 then
      (split? (n + 1 - c.utf8Size) cs).map fun (a, b) => (c :: a, b)
    else none

/-- The part of a text that a span covers, if both ends lie between characters, in order. -/
def slice? (cs : List Char) (s : Span) : Option (List Char) := do
  guard (s.start ≤ s.stop)
  let (_, rest) ← split? s.start cs
  let (middle, _) ← split? (s.stop - s.start) rest
  return middle

/-- Whether a byte offset lies between two characters or at an end of the text. -/
def isBoundary (cs : List Char) (offset : Nat) : Bool :=
  (split? offset cs).isSome

/-- The characters that begin before a byte offset. -/
def before : Nat → List Char → List Char
  | 0, _ => []
  | _ + 1, [] => []
  | n + 1, c :: cs => c :: before (n + 1 - c.utf8Size) cs

/-- The characters that begin at a byte offset or after it. -/
def after : Nat → List Char → List Char
  | 0, cs => cs
  | _ + 1, [] => []
  | n + 1, c :: cs => after (n + 1 - c.utf8Size) cs

theorem before_append_after (n : Nat) (cs : List Char) : before n cs ++ after n cs = cs := by
  fun_induction before n cs <;> simp_all [after]

/-- A line and a column, both counted from one; columns are characters. -/
structure Place where
  line : Nat
  column : Nat
  deriving DecidableEq, Repr, Inhabited

/-- The place reached after one more character. -/
def Place.step (p : Place) (c : Char) : Place :=
  if c = '\n' then ⟨p.line + 1, 1⟩ else ⟨p.line, p.column + 1⟩

/-- The place of a byte offset; past the end it is the end, inside a character just after it. -/
def Place.ofOffset (text : String) (offset : Nat) : Place :=
  (before offset text.toList).foldl Place.step ⟨1, 1⟩

end Text

end Relabel
