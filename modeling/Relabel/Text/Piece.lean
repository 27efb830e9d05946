import Relabel.Text.Trim

/-!
# Pieces of a document
-/

namespace Relabel

/-- A text together with the bytes it stands on. -/
structure Piece where
  text : String
  span : Span
  deriving DecidableEq, Repr, Inhabited

namespace Piece

/-- A text that starts at a byte offset. -/
def located (start : Nat) (cs : List Char) : Piece :=
  ⟨.ofList cs, .ofOffsets start (start + Text.size cs)⟩

/-- What trimming leaves of a text that starts at a byte offset. -/
def trimmedAt (start : Nat) (cs : List Char) : Piece :=
  Piece.located (start + Text.lead cs) (Text.trim cs)

end Piece

end Relabel
