import Relabel.Binding.Expression
import Relabel.Binding.Scan
import Relabel.Markup.Location
import Relabel.Markup.Reader
import Relabel.Options
import Relabel.Usage

/-!
# Extraction

Walks the template of a component and collects its usages. Names are looked up in the scope at the
place where they stand; a name that nobody knows is reported and taken for a renameable property of
the component. A loop whose list is missing or unknown is passed over with its content.
-/

namespace Relabel

open Fragment (Phrase)
open Markup (Head Attribute Element)
open Text

/-- What a walk collects, in order. -/
structure Found where
  usages : List Usage := []
  warnings : List Warning := []
  deriving Repr, Inhabited

namespace Found

/-- The usages and warnings of one part, then those of another. -/
def append (a b : Found) : Found :=
  ⟨a.usages ++ b.usages, a.warnings ++ b.warnings⟩

instance : Append Found := ⟨append⟩

def one (u : Usage) (warnings : List Warning := []) : Found :=
  ⟨[u], warnings⟩

/-- Parts put together in order. -/
def concat (parts : List Found) : Found :=
  parts.foldr append {}

end Found

/-- The document that is walked and what is known besides. -/
structure Site where
  document : String
  source : String
  schemas : SchemaTable
  options : Options
  deriving Inhabited

namespace Site

/-- The names of a loop's variables where the template gives none. -/
def defaultItem : String := "item"

/-- The name of the index variable where the template gives none. -/
def defaultIndex : String := "index"

/-- A problem of the component that owns the template. -/
def ownerWarning (site : Site) (scope : Scope) (problem : String → Problem) : Warning :=
  ⟨site.document, scope.owner, problem scope.owner⟩

/-- Whether a path refers to anything. -/
def resolves (scope : Scope) (path : String) : Bool :=
  (scope.lookup path).isSome || (scope.methodRenameable? path).isSome

def pathUsage (site : Site) (scope : Scope) (piece : Piece) (role : PathRole) :
    Usage × List Warning :=
  let usage (q : Qualifier) := Usage.path piece.span piece.text q role
  match scope.lookup piece.text with
  | some r => (usage (.ofResolution r), [])
  | none =>
    match scope.methodRenameable? piece.text with
    | some renameable => (usage (.component renameable), [])
    | none => (usage (.component true), [site.ownerWarning scope (.noProperty piece.text)])

/-- What the name of a method or a listener refers to: a loop variable or a method. -/
def methodQualifier? (scope : Scope) (name : String) : Option Qualifier :=
  match scope.lookup name with
  | some (.loop _ role bound depth) => some (.loop role bound depth)
  | _ => (scope.methodRenameable? name).map .component

/-- An argument of a call. -/
def argumentUsage (site : Site) (scope : Scope) : Argument → Usage × List Warning
  | .literal piece => (.literal piece.text, [])
  | .path piece => site.pathUsage scope piece .expression

def callUsage (site : Site) (scope : Scope) (method : Piece) (args : List Argument) :
    Usage × List Warning :=
  let (qualifier, warnings) := match methodQualifier? scope method.text with
    | some q => (q, [])
    | none => (.component true, [site.ownerWarning scope (.noMethod method.text)])
  let found := args.map (site.argumentUsage scope)
  (.call method.span method.text qualifier (found.map (·.1)), warnings ++ found.flatMap (·.2))

/-- The expression of a binding; a literal or nothing at all is no usage. -/
def bindingUsage? (site : Site) (scope : Scope) (b : Binding) : Option (Usage × List Warning) :=
  match Expression.ofPiece b.expression with
  | .path piece =>
    if piece.text.isEmpty then none else some (site.pathUsage scope piece .expression)
  | .call method args => some (site.callUsage scope method args)
  | .literal _ => none

/-- The bindings of a text. -/
def bindingUsages (site : Site) (scope : Scope) (bindings : List Binding) : Found :=
  let found := bindings.filterMap (site.bindingUsage? scope)
  ⟨found.map (·.1), found.flatMap (·.2)⟩

/-- The bindings of a text node. -/
def textUsages (site : Site) (scope : Scope) (piece : Piece) : Found :=
  site.bindingUsages scope (Binding.findAll piece.text piece.span.start)

/-- A text without one `$` at its end. -/
def withoutDollar (cs : List Char) : List Char :=
  (stripSuffix? ['$'] cs).getD cs

/-- The bytes of a piece without the blanks around its text. -/
def trimmed (piece : Piece) : Piece :=
  Piece.trimmedAt piece.span.start piece.text.toList

/-- The property that the name of an attribute stands for. -/
def propertyOf (name : List Char) : String :=
  camelCase (lowercase (.ofList name))

/-- Whether a tag has a property that may be renamed. -/
def attributeRenameable (site : Site) (tag property : String) : Bool :=
  (((site.schemas.get? tag).bind (·.property? property)).any (·.renameable))

/-- An attribute name that is a property of the tag. -/
def attributeNameUsage? (site : Site) (tag property : String) (start : Nat) (name : List Char) :
    Option Usage :=
  (site.schemas.typeName? tag).map fun type =>
    .attributeName (.ofOffsets start (start + size name)) tag type property

/-- The flow of a value into the property of an attribute: the value has to be one binding and
nothing else. -/
def dataFlow? (site : Site) (tag property : String) (value : Piece) (bindings : List Binding)
    (bound : List Usage) : Option Usage := do
  let [b] := bindings | none
  guard (b.outer = (trimmed value).span)
  let primary ← bound.head?
  let type ← site.schemas.typeName? tag
  let source ← primary.phrase?
  return .dataFlow value.span tag type property source (b.kind == .twoWay && primary.isAssignable)

/-- The usages of an attribute by its name and its bindings. -/
def attributeUsages (site : Site) (scope : Scope) (head : Head) (a : Attribute) : Found :=
  let tag := head.effectiveTag
  let cs := a.name.text.toList
  let name := withoutDollar cs
  let property := propertyOf name
  let renameable := site.attributeRenameable tag property
  let named : Found :=
    if renameable then
      ⟨(site.attributeNameUsage? tag property a.name.span.start name).toList, []⟩
    else {}
  match a.value.filter (3 ≤ ·.text.utf8ByteSize) with
  | none => named
  | some value =>
    let bindings := Binding.findAll value.text value.span.start
    let bound := site.bindingUsages scope bindings
    let flow :=
      if cs.getLast? ≠ some '$' ∨ renameable then
        site.dataFlow? tag property value bindings bound.usages
      else none
    named ++ bound ++ ⟨flow.toList, []⟩

/-- Whether an attribute listens to an event. -/
def isListener (a : Attribute) : Bool :=
  (stripPrefix? "on-".toList (lowercase a.name.text).toList).isSome

/-- The method that a listener attribute names. -/
def listenerUsages (site : Site) (scope : Scope) (tag : String) (a : Attribute) : Found :=
  match a.value with
  | none => {}
  | some value =>
    let method := trimmed value
    if method.text.isEmpty || (Binding.find? value.text value.span.start).isSome then {}
    else
      match methodQualifier? scope method.text with
      | some q => .one (.listener method.span method.text q)
      | none =>
        .one (.listener method.span method.text (.component true))
          [⟨site.document, tag, .noListener method.text tag scope.owner⟩]

/-- The property that an event like `foo-changed` is about. -/
def changedUsages (site : Site) (scope : Scope) (head : Head) (a : Attribute) : Found :=
  let tag := head.effectiveTag
  let event := (withoutDollar a.name.text.toList).drop 3
  match stripSuffix? "-changed".toList event, site.schemas.get? tag with
  | some changed, some schema =>
    let property := propertyOf changed
    match schema.property? property with
    | some info =>
      if info.renameable then
        ⟨(site.attributeNameUsage? tag property (a.name.span.start + 3) changed).toList, []⟩
      else {}
    | none =>
      if head.isRepeat && property == "dom" then {}
      else ⟨[], [⟨site.document, tag, .noAttributeProperty property tag scope.owner⟩]⟩
  | _, _ => {}

def isDataFlow : Usage → Bool
  | .dataFlow .. => true
  | _ => false

def isAttributeName : Usage → Bool
  | .attributeName .. => true
  | _ => false

def allAttributeUsages (site : Site) (scope : Scope) (head : Head) (a : Attribute) : Found :=
  let found := site.attributeUsages scope head a
  if isListener a then
    let kept : Found := { found with usages := found.usages.filter (! isDataFlow ·) }
    kept ++ site.listenerUsages scope head.effectiveTag a ++ site.changedUsages scope head a
  else found

/-- The name under which the bindings of an attribute are looked up: lower case, no `$` at the
end. -/
def bindingKey (a : Attribute) : String :=
  lowercase (.ofList (a.name.text.toList.reverse.dropWhile (· == '$')).reverse)

/-- Attributes with their usages, after their locations were checked. -/
def attributesOf (site : Site) (scope : Scope) (head : Head) :
    Except Failure (List (Attribute × Found)) :=
  head.attributes.mapM fun a => do
    Markup.checkLocation site.document site.source head.tag a
    return (a, site.allAttributeUsages scope head a)

/-- The first bound expression of the last attribute with a key. -/
def boundUsage? (found : List (Attribute × Found)) (key : String) : Option Usage := do
  let (_, f) ← found.reverse.find? fun (a, _) => bindingKey a == key
  (f.usages.filter (! isAttributeName ·)).head?

/-- A variable of a loop, with its name if that is a reference of its own: an attribute that holds
just a name. -/
def loopVariable (site : Site) (head : Head) (attr standard : String) :
    LoopVariable × Option Piece :=
  match (head.attribute? attr).bind (·.value) with
  | none => (⟨standard, true, false⟩, none)
  | some value =>
    match Binding.find? value.text value.span.start with
    | some b => (⟨b.expression.text, false, false⟩, none)
    | none =>
      let name := trimmed value
      if name.text.isEmpty then (⟨standard, true, false⟩, none)
      else (⟨name.text, false, site.options.renameAliases⟩, some name)

/-- A callback that is the bare name of a method. -/
def namedCallback (site : Site) (scope : Scope) (head : Head) (attr : String) :
    Option Usage × List Warning :=
  match (head.attribute? attr).bind (·.value) with
  | none => (none, [])
  | some value =>
    let name := trimmed value
    if name.text.isEmpty then (none, [])
    else
      match scope.methodRenameable? name.text with
      | some renameable =>
        (some (.path name.span name.text (.component renameable) .expression), [])
      | none => (none, [site.ownerWarning scope (.noCallback attr name.text)])

/-- The call that a loop makes of a function. -/
def callbackUsage? (kind : CallbackKind) (function : Usage) (items : Phrase) : Option Usage := do
  return .callback kind (← function.span?) (← function.phrase?) items

/-- The `sort` or `filter` function of a loop. -/
def callbackUsages (site : Site) (scope : Scope) (head : Head) (attr : String)
    (kind : CallbackKind) (bound : Option Usage) (items : Phrase) : Found :=
  if (head.attribute? attr).isNone then {}
  else
    match bound with
    | some function => ⟨(callbackUsage? kind function items).toList, []⟩
    | none =>
      match site.namedCallback scope head attr with
      | (some function, warnings) =>
        ⟨function :: (callbackUsage? kind function items).toList, warnings⟩
      | (none, warnings) => ⟨[], warnings⟩

/-- The name of a loop variable as a reference to itself. -/
def variableUsage? (role : LoopRole) (bound : LoopVariable) (depth : Nat) (name : Option Piece) :
    Option Usage := do
  let piece ← name
  guard bound.renameable
  return .path piece.span piece.text (.loop role ⟨bound.name, false, true⟩ depth) .expression

/-- The words of a text that starts at an offset: maximal runs without blanks. -/
def wordsFrom (start : Nat) (word : List Char) : List Char → List Piece
  | [] => if word.isEmpty then [] else [Piece.located start word.reverse]
  | c :: cs =>
    if isBlank c then
      let rest := wordsFrom (start + size word + c.utf8Size) [] cs
      if word.isEmpty then rest else Piece.located start word.reverse :: rest
    else wordsFrom start (c :: word) cs

/-- The entries of an `observe` list, each a property of the item. -/
def observedUsages (site : Site) (scope : Scope) (head : Head) (item : String) : Found :=
  match (head.attribute? "observe").bind (·.value) with
  | none => {}
  | some value =>
    if (Binding.find? value.text value.span.start).isSome then {}
    else
      let entries := wordsFrom value.span.start [] value.text.toList
      let found := entries.map fun entry =>
        site.pathUsage scope ⟨item ++ "." ++ entry.text, entry.span⟩ .observed
      ⟨found.map (·.1), found.flatMap (·.2)⟩

/-- A loop that is entered: its list, its variables, what stands before it and what its own
attributes put inside. -/
structure Opening where
  items : Usage
  frame : Frame
  before : Found
  inside : Found

/-- Enters a loop, or tells why its content is passed over. -/
def openLoop (site : Site) (scope : Scope) (head : Head) (found : List (Attribute × Found)) :
    Except (List Warning) Opening := do
  let items ← match boundUsage? found "items" with
    | none => throw [site.ownerWarning scope .noItems]
    | some (.path span path qualifier role) =>
      if resolves scope path then pure (Usage.path span path qualifier role) else throw []
    | some u => pure u
  let some phrase := items.phrase? | throw []
  let sort := site.callbackUsages scope head "sort" .sort (boundUsage? found "sort") phrase
  let filter := site.callbackUsages scope head "filter" .filter (boundUsage? found "filter") phrase
  let (item, itemName) := site.loopVariable head "as" defaultItem
  let (index, indexName) := site.loopVariable head "index-as" defaultIndex
  let inner := scope.enter ⟨item, index⟩
  let names := (variableUsage? .item item inner.depth itemName).toList
    ++ (variableUsage? .index index inner.depth indexName).toList
  let observed := site.observedUsages inner head item.name
  return ⟨items, ⟨item, index⟩, sort ++ filter, ⟨names, []⟩ ++ observed⟩

/-- The loop with what was found inside it. -/
def closeLoop (scope : Scope) (head : Head) (opening : Opening) (content : Found) : Found :=
  let depth := (scope.enter opening.frame).depth
  let inside := opening.inside ++ content
  let children :=
    if opening.frame.item.isDefault then Usage.rescopeAll depth inside.usages else inside.usages
  opening.before
    ++ ⟨[.loop head.startTag opening.items opening.frame depth children], inside.warnings⟩

mutual

def walkNode (site : Site) (scope : Scope) : Markup.Node → Except Failure Found
  | .comment _ => .ok {}
  | .text piece => .ok (site.textUsages scope piece)
  | .element head children => do
    let found ← site.attributesOf scope head
    let own := Found.concat (found.map (·.2))
    let isRaw := site.options.isRawText head.tag
    if head.isRepeat then
      match site.openLoop scope head found with
      | .error warnings => return own ++ ⟨[], warnings⟩
      | .ok opening => do
        let content ←
          if isRaw then pure {} else site.walk (scope.enter opening.frame) children
        return own ++ closeLoop scope head opening content
    else
      let content ← if isRaw then pure {} else site.walk scope children
      return own ++ content

/-- The usages of some nodes, one after another. -/
def walk (site : Site) (scope : Scope) : List Markup.Node → Except Failure Found
  | [] => .ok {}
  | n :: ns => do
    let first ← site.walkNode scope n
    let rest ← site.walk scope ns
    return first ++ rest

end

end Site

structure TemplateUsages where
  owner : String
  typeName : String
  usages : List Usage
  deriving Repr, Inhabited

structure DocumentUsages where
  document : String
  templates : List TemplateUsages
  warnings : List Warning
  deriving Repr, Inhabited

namespace Site

/-- The usages of a template of `owner` with the given content. -/
def template (site : Site) (owner : String) (content : List Markup.Node) :
    Except Failure (TemplateUsages × List Warning) := do
  let some typeName := site.schemas.typeName? owner | throw (.unknownType owner)
  let found ← site.walk { owner, schema := site.schemas.get? owner } content
  return (⟨owner, typeName, found.usages⟩, found.warnings)

/-- The template of a component: the content of the first template element. -/
def templateIn? (nodes : List Markup.Node) : Option (List Markup.Node) :=
  ((Markup.childElements nodes).find? fun (head, _) => head.tag == "template").map (·.2)

/-- The template of one component definition; one without schema or template has none. -/
def module (site : Site) (element : Element) :
    Except Failure (Option (TemplateUsages × List Warning)) :=
  let (head, children) := element
  match (head.attributeValue? "id").filter (! ·.isEmpty) with
  | none =>
    .error (.missingModuleId site.document (Place.ofOffset site.source head.span.start))
  | some id =>
    if site.schemas.contains id then
      match templateIn? children with
      | none => .ok none
      | some content => (site.template id content).map some
    else .ok none

/-- The templates of all component definitions of a document. -/
def extract (site : Site) (document : Markup.Document) : Except Failure DocumentUsages := do
  let found ← (document.find "dom-module").filterMapM site.module
  return ⟨document.id, found.map (·.1), found.flatMap (·.2)⟩

/-- A document that is itself the template of `owner`. -/
def extractRoot (site : Site) (document : Markup.Document) (owner : String) :
    Except Failure DocumentUsages :=
  match templateIn? document.children with
  | none => .ok ⟨document.id, [], []⟩
  | some content => do
    let (template, warnings) ← site.template owner content
    return ⟨document.id, [template], warnings⟩

end Site

end Relabel
