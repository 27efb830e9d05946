import Relabel.Fragment.Emission
import Relabel.Splice

/-!
# Source documents

The documents that a run is given, and the run that turns them into fragments. Documents do not
depend on each other; the first failure in their order ends the run.
-/

namespace Relabel

/-- A document with its source map. -/
structure SourceDocument where
  id : String
  content : String
  map : Option SourceMap := none
  deriving DecidableEq, Repr, Inhabited

namespace SourceDocument

open Json

/-- The document that a JSON value holds. -/
def ofJson? (json : Json) : Option SourceDocument := do
  let fields ← json.fields? ["id", "content", "sourceMap"]
  return {
    id := ← required fields "id" toText?
    content := ← required fields "content" toText?
    map := ← optional fields "sourceMap" none (nullable SourceMap.ofJson?) }

/-- The documents of a JSON text. -/
def readAll? (text : String) : Option (List SourceDocument) :=
  Json.read? text >>= toList? ofJson?

/-- Applies edits to a document. -/
def splice (d : SourceDocument) (edits : List Edit) : Except Failure Mapped :=
  Mapped.splice d.id ⟨d.content, d.map⟩ edits

def extract (d : SourceDocument) (schemas : SchemaTable) (options : Options) :
    Except Failure DocumentUsages := do
  let tree ← Markup.read d.id d.content
  Site.extract ⟨d.id, d.content, schemas, options⟩ tree

end SourceDocument

/-- What an extraction gives. -/
structure Extracted where
  fragments : List Fragment
  warnings : List Warning
  deriving Repr, Inhabited

/-- The fragments and warnings of some documents, in their order. -/
def extractAll (documents : List SourceDocument) (schemas : SchemaTable) (options : Options) :
    Except Failure Extracted := do
  let usages ← documents.mapM (·.extract schemas options)
  return ⟨usages.filterMap (Fragment.ofUsages? options.recordingObject),
    usages.flatMap (·.warnings)⟩

end Relabel
