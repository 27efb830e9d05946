import Relabel.Diagnostic
import Relabel.Json.Decode
import Relabel.Json.Reader
import Relabel.Text.Classes

/-!
# Options of a run
-/

namespace Relabel

/-- The settings of a run; each has a default. -/
structure Options where
  /-- The global object whose functions record references. -/
  recordingObject : String := "polymerRename"
  /-- Types of tags, consulted before any other source of a type name. -/
  typeNames : List (String × String) := []
  /-- Elements whose content is never scanned for bindings. -/
  rawTextTags : List String := ["style", "script"]
  /-- Whether the alias attributes of a loop are references themselves. -/
  renameAliases : Bool := false
  /-- Directory and file names that are passed over. -/
  excludedPaths : List String := ["node_modules", "bower_components"]
  /-- Extensions of template files, without the dot. -/
  fileExtensions : List String := ["html"]
  deriving Repr, Inhabited

namespace Options

open Json

/-- The options that a JSON value holds. -/
def ofJson? (json : Json) : Option Options := do
  let fields ← json.fields? ["namespace", "typeNameOverrides", "rawTextTags",
    "renameRepeatAliases", "excludedPaths", "fileExtensions"]
  let standard : Options := {}
  let texts := toList? toText?
  return {
    recordingObject := ← optional fields "namespace" standard.recordingObject toText?
    typeNames := ← optional fields "typeNameOverrides" standard.typeNames (toMap? toText?)
    rawTextTags := ← optional fields "rawTextTags" standard.rawTextTags texts
    renameAliases := ← optional fields "renameRepeatAliases" standard.renameAliases toBool?
    excludedPaths := ← optional fields "excludedPaths" standard.excludedPaths texts
    fileExtensions := ← optional fields "fileExtensions" standard.fileExtensions texts }

/-- The options that a JSON text holds. -/
def read (text : String) : Except Failure Options :=
  match Json.read? text >>= ofJson? with
  | some options => .ok options
  | none => .error .invalidOptions

/-- Whether the content of a tag is left alone. -/
def isRawText (options : Options) (tag : String) : Bool :=
  options.rawTextTags.any (Text.sameLetters · tag)

end Options

end Relabel
