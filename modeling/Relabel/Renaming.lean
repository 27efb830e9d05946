import Relabel.Source

/-!
# Renamings

What a recording call says once the names are settled: the bytes of a document and the name that
has to stand there.
-/

namespace Relabel

/-- A name for a range of bytes of a document. -/
structure Renaming where
  document : String
  span : Span
  name : String
  deriving DecidableEq, Repr, Inhabited

namespace Renaming

open Json

/-- The renaming that a JSON value holds. -/
def ofJson? (json : Json) : Option Renaming := do
  let fields ← json.fields? ["documentId", "start", "end", "resolvedName"]
  return {
    document := ← required fields "documentId" toText?
    span := ⟨← required fields "start" toWord?, ← required fields "end" toWord?⟩
    name := ← required fields "resolvedName" toText? }

/-- The edit that carries out a renaming. -/
def edit (r : Renaming) : Edit :=
  ⟨r.span, r.name⟩

end Renaming

/-- Carries out the renamings that are meant for a document. -/
def SourceDocument.rename (d : SourceDocument) (renamings : List Renaming) :
    Except Failure Mapped :=
  d.splice ((renamings.filter (·.document == d.id)).map Renaming.edit)

end Relabel
