import Relabel.Extraction
import Relabel.Fragment.Key
import Relabel.Fragment.Program
import Relabel.Fragment.Recorder
import Relabel.Text.Classes

/-!
# Emission

Turns the usages of a document into a program for a renamer. Each renameable reference becomes a
recording call; it is followed by its base where only the rest of the path may be renamed. The
program also calls what the template calls and assigns what flows, so that a type checker sees it.
-/

namespace Relabel

/-- The program of one document, with the number of its recording calls. -/
structure Fragment where
  document : String
  code : String
  recordCount : Nat
  deriving DecidableEq, Repr, Inhabited

namespace Fragment

open Text

/-- The recording object and the document that recording calls name. -/
structure Target where
  object : String
  document : String

namespace Target

/-- A function of the recording object. -/
def function (t : Target) (name : String) : Phrase :=
  .member (.name t.object) name

/-- A recording call. -/
def record (t : Target) (recorder : Recorder) (span : Span) (args : List Phrase) : Statement :=
  .record (.call (t.function recorder.name)
    ([.quoted t.document, .number span.start, .number span.stop] ++ args))

end Target

/-- The variable that holds an element of a type. -/
def elementVariable (type : String) : String :=
  let part (c : Char) : Char :=
    if c = '.' then '$'
    else if isAsciiLetter c || isAsciiDigit c || c == '_' || c == '$' then c
    else '_'
  "polymerRename_" ++ .ofList (type.toList.map part)

/-- A reference with its base, or `none` if no part of it may be renamed. -/
def referenceArgs? (q : Qualifier) (path : String) : Option (List Phrase) :=
  let based (base : String) : Option (List Phrase) :=
    if path = base then none else some [q.phrase path, .name base, .quoted base]
  match q with
  | .component renameable => if renameable then some [q.phrase path] else none
  | .loop _ bound _ => if bound.renameable then some [q.phrase path] else based bound.name
  | .item base => based base

/-- The recording call of a reference, if any part of it may be renamed. -/
def referenceRecord (t : Target) (recorder : Recorder) (span : Span) (q : Qualifier)
    (path : String) : List Statement :=
  ((referenceArgs? q path).map (t.record recorder span)).toList

/-- The recording call of an entry of an `observe` list. -/
def observedRecord (t : Target) (span : Span) (q : Qualifier) (path : String) : Statement :=
  let base := match q.base? with
    | some base => [.name base, .quoted base]
    | none => []
  t.record .observedPath span (q.phrase path :: base)

/-- The recording call of a path. -/
def pathRecord (t : Target) (span : Span) (path : String) (q : Qualifier) :
    PathRole → List Statement
  | .observed => [observedRecord t span q path]
  | .expression =>
    match q with
    | .item base =>
      if path = base then []
      else
        let item := .call (t.function "domRepeatItem") [.name base]
        [t.record .itemProperty span [item, q.phrase path, .quoted base]]
    | q => referenceRecord t .identifier span q path

/-- A block in which a variable holds an element of a tag. -/
def elementBlock (tag type : String) (body : Phrase → List Statement) : Statement :=
  let holder := elementVariable type
  let create := Phrase.call (.member (.name "document") "createElement") [.quoted tag]
  .block (.declare holder (.typed type create) :: body (.name holder))

/-- The call that a loop makes of its `sort` or `filter` function. -/
def callbackCall (t : Target) (kind : CallbackKind) (function items : Phrase) : Statement :=
  let item (n : Nat) := Phrase.element items (.number n)
  match kind with
  | .sort => .run (.call (t.function "domRepeatSort") [.call function [item 0, item 1]])
  | .filter => .run (.call (t.function "domRepeatFilter") [.call function [item 0]])

mutual

def statements (t : Target) : Usage → List Statement
  | .path span path q role => pathRecord t span path q role
  | .call span name q args =>
    .run (.call (q.phrase name) (Usage.phrasesOf args))
      :: referenceRecord t .method span q name ++ statementsOf t args
  | .literal _ => []
  | .loop _ items frame _ children =>
    match items.phrase? with
    | none => []
    | some list => [.forEach frame.index.name frame.item.name list (statementsOf t children)]
  | .attributeName span tag type property =>
    [elementBlock tag type fun v => [t.record .attributeName span [v, .member v property]]]
  | .listener span method q =>
    .run (.call (q.phrase method) [.create "CustomEvent" [.quoted "event"]])
      :: referenceRecord t .listener span q method
  | .dataFlow _ tag type property source twoWay =>
    [elementBlock tag type fun v =>
      let target := Phrase.member v property
      .assign target source :: if twoWay then [.assign source target] else []]
  | .callback kind _ function items => [callbackCall t kind function items]

def statementsOf (t : Target) : List Usage → List Statement
  | [] => []
  | u :: us => statements t u ++ statementsOf t us

end

/-- The statements of a template: a function that a component runs. -/
def templateStatements (t : Target) (template : TemplateUsages) : List Statement :=
  if template.usages.isEmpty then []
  else
    let owner := Phrase.call (t.function "createElement") [.quoted template.owner]
    [.block [
      .note ("@this \x7b" ++ template.typeName ++ "\x7d @suppress \x7bvisibility\x7d"),
      .declareFunction "renameFn" (statementsOf t template.usages),
      .run (.call (t.function "sink") [.name "renameFn"]),
      .run (.call (.member (.name "renameFn") "call") [.typed template.typeName owner])]]

def program (object : String) (d : DocumentUsages) : Option Statement :=
  let body := d.templates.flatMap (templateStatements ⟨object, d.document⟩)
  if body.isEmpty then none
  else some (.assignFunction (.element (.name "window") (.quoted (key d.document))) body)

/-- The fragment of a document, if its templates use any name. -/
def ofUsages? (object : String) (d : DocumentUsages) : Option Fragment :=
  (program object d).map fun p => ⟨d.document, programText [p], p.records⟩

/-- Several fragments as one program. -/
def combine (fragments : List Fragment) : String :=
  joined "\n" (fragments.map (·.code))

end Fragment

end Relabel
