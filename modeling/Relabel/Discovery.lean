import Relabel.Source

/-!
# Discovery

Finds the template files of a directory and loads them, each with the source map that stands
beside it. The order of the files is that of their paths, part by part.
-/

namespace Relabel

/-- A file of a directory: the parts of its path and its bytes. -/
structure StoredFile where
  path : List String
  bytes : ByteArray
  deriving Inhabited

namespace StoredFile

/-- The path as one text. -/
def name (f : StoredFile) : String :=
  String.intercalate "/" f.path

/-- The text of a file. -/
def read (f : StoredFile) : Except Failure String :=
  match String.fromUTF8? f.bytes with
  | some text => .ok text
  | none => .error (.unreadable f.name)

end StoredFile

/-- What follows the last dot of a file name that has something before that dot. -/
def extension? (name : String) : Option String :=
  let backwards := name.toList.reverse
  match backwards.dropWhile (· != '.') with
  | _ :: _ :: _ => some (.ofList (backwards.takeWhile (· != '.')).reverse)
  | _ => none

/-- Whether a path leads to a template. -/
def Options.isTemplate (options : Options) (path : List String) : Bool :=
  let extension := path.getLast?.bind extension?
  !path.any options.excludedPaths.contains
    && extension.any fun e => options.fileExtensions.any (Text.sameLetters e)

/-- The files of a directory, those of its subdirectories included; each path occurs once. -/
structure Directory where
  files : List StoredFile
  deriving Inhabited

namespace Directory

def file? (d : Directory) (path : List String) : Option StoredFile :=
  d.files.find? (·.path == path)

/-- The text of the file at a path. -/
def read (d : Directory) (path : List String) : Except Failure String :=
  match d.file? path with
  | some f => f.read
  | none => .error (.unreadable (String.intercalate "/" path))

/-- The options in the file at a path. -/
def readOptions (d : Directory) (path : List String) : Except Failure Options := do
  Options.read (← d.read path)

/-- The template files, in the order of their paths. -/
def templates (d : Directory) (options : Options) : List StoredFile :=
  (d.files.filter fun f => options.isTemplate f.path).mergeSort fun a b => !decide (b.path < a.path)

/-- The path of the source map of a file. -/
def mapPath (path : List String) : List String :=
  match path.getLast? with
  | some name => path.dropLast ++ [name ++ ".map"]
  | none => []

def document (d : Directory) (f : StoredFile) : Except Failure SourceDocument := do
  let content ← f.read
  match d.file? (mapPath f.path) with
  | none => return { id := f.name, content }
  | some m => return { id := f.name, content, map := some (← SourceMap.read (← m.read)) }

/-- The documents of a directory; the first file that cannot be loaded fails. -/
def documents (d : Directory) (options : Options) : Except Failure (List SourceDocument) :=
  (d.templates options).mapM d.document

end Directory

end Relabel
