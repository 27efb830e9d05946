/-!
# Sets of code points

A `CodeSet` is a list of closed intervals in ascending order; the tables of character classes
are written this way.
-/

namespace Relabel.Text

/-- A set of code points, as closed intervals in ascending order. -/
abbrev CodeSet := List (Nat × Nat)

/-- Whether a character lies in one of the intervals. -/
def CodeSet.contains (s : CodeSet) (c : Char) : Bool :=
  s.any fun (lo, hi) => lo ≤ c.toNat && c.toNat ≤ hi

end Relabel.Text
