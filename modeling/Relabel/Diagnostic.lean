import Relabel.Fragment.Recorder
import Relabel.Text.Span

/-!
# Failures and warnings

A `Failure` ends a run or drops one document; a `Warning` is reported and changes nothing. Both
name their cause, and `message` and `code` give the wording. What is wrong with JSON, with a file
or with the grammar of a script is not worded here, so those failures have no message.
-/

namespace Relabel

open Text

/-- What markup can lack to be cut into tokens. -/
inductive MarkupProblem where
  | openComment
  | openDeclaration
  | openEndTag
  | openStartTag (tag : String)
  | openValue (name : String)
  deriving DecidableEq, Repr

/-- What can be wrong with the mappings of a source map. -/
inductive MappingProblem where
  | notBase64 (c : Char)
  | overflow
  | truncated
  | fieldCount (segment : String) (count : Nat)
  | outOfRange (field : String)
  deriving DecidableEq, Repr

/-- What can be wrong with the location arguments of a recording call. -/
inductive LocationProblem where
  | lostDocument
  | lostOffset (which : String)
  | badOffset (which : String) (value : String)
  deriving DecidableEq, Repr

/-- Why a run or a document was given up. -/
inductive Failure where
  | duplicateComponent (tag : String)
  | unknownType (tag : String)
  | missingModuleId (document : String) (place : Place)
  | malformedLocation (document tag name : String) (place : Place)
  | markup (document : String) (problem : MarkupProblem) (place : Place)
  | scriptSyntax
  | lostLocation (recorder : Recorder) (offset : Nat) (problem : LocationProblem)
  | contract (document : String) (span : Span) (found base : String)
  | unsupported (document : String) (span : Span) (recorder : Recorder)
  | invalidRange (document : String) (span : Span) (length : Nat)
  | overlap (document : String) (span : Span) (next : Nat)
  | mappings (problem : MappingProblem)
  | invalidMap
  | unreadable (path : String)
  | invalidOptions
  deriving DecidableEq, Repr

def MarkupProblem.message : MarkupProblem → String
  | openComment => "unterminated comment"
  | openDeclaration => "unterminated declaration"
  | openEndTag => "unterminated end tag"
  | openStartTag tag => s!"unterminated start tag <{tag}>"
  | openValue name => s!"unterminated value for attribute '{name}'"

def MappingProblem.message : MappingProblem → String
  | notBase64 c => s!"invalid base64 character '{c}' in mappings"
  | overflow => "VLQ value overflow"
  | truncated => "truncated VLQ value"
  | fieldCount segment count => s!"segment '{segment}' has {count} fields"
  | outOfRange field => s!"negative {field} in mappings"

def LocationProblem.message : LocationProblem → String
  | lostDocument => "lost its document id"
  | lostOffset which => s!"lost its {which} offset"
  | badOffset which value => s!"has invalid {which} offset {value}"

namespace Failure

/-- The stable code of a failure. -/
def code : Failure → String
  | duplicateComponent .. => "PR-ERR-SCHEMA-001"
  | unknownType .. => "PR-ERR-SCHEMA-002"
  | missingModuleId .. => "PR-ERR-MODULE-001"
  | malformedLocation .. => "PR-ERR-LOCATION-001"
  | markup .. => "PR-ERR-MARKUP-001"
  | scriptSyntax => "PR-ERR-RECOVER-001"
  | lostLocation .. => "PR-ERR-RECOVER-001"
  | contract .. => "PR-ERR-RECOVER-002"
  | unsupported .. => "PR-ERR-RECOVER-003"
  | invalidRange .. => "PR-ERR-SPLICE-001"
  | overlap .. => "PR-ERR-SPLICE-002"
  | mappings .. => "PR-ERR-SOURCEMAP-001"
  | invalidMap => "PR-ERR-SOURCEMAP-001"
  | unreadable .. => "PR-ERR-IO-001"
  | invalidOptions => "PR-ERR-CONFIG-001"

/-- The document that a failure concerns, unless it concerns the run. -/
def document? : Failure → Option String
  | missingModuleId document _ => some document
  | malformedLocation document .. => some document
  | markup document .. => some document
  | contract document .. => some document
  | unsupported document .. => some document
  | invalidRange document .. => some document
  | overlap document .. => some document
  | _ => none

/-- The wording of a failure. -/
def message? : Failure → Option String
  | duplicateComponent tag => some s!"Multiple component definitions found for tag '{tag}'"
  | unknownType tag => some s!"Unable to determine type of tag '{tag}'"
  | missingModuleId document ⟨line, column⟩ =>
    some s!"{document}:{line}:{column}: dom-module is missing an id attribute"
  | malformedLocation document tag name ⟨line, column⟩ =>
    some (s!"{document}:{line}:{column}: location of attribute '{name}' on <{tag}> "
      ++ "does not match the source text")
  | markup document problem ⟨line, column⟩ =>
    some s!"{document}:{line}:{column}: {problem.message}"
  | scriptSyntax => none
  | lostLocation recorder offset problem =>
    some (s!"Unable to parse renamed fragment: {recorder.name} call at offset {offset} "
      ++ problem.message)
  | contract document ⟨start, stop⟩ found base =>
    some (s!"{document} [{start}, {stop}): renamed reference '{found}' "
      ++ s!"does not begin with base '{base}'")
  | unsupported document ⟨start, stop⟩ recorder =>
    some (s!"{document} [{start}, {stop}): unsupported reference expression in "
      ++ s!"'{recorder.name}' call")
  | invalidRange document ⟨start, stop⟩ length =>
    some (s!"{document}: replacement range [{start}, {stop}) is outside the document "
      ++ s!"(length {length})")
  | overlap document ⟨start, stop⟩ next =>
    some (s!"{document}: replacement [{start}, {stop}) overlaps a replacement "
      ++ s!"starting at {next}")
  | mappings problem => some s!"Invalid source map: {problem.message}"
  | invalidMap => none
  | unreadable _ => none
  | invalidOptions => none

end Failure

/-- What a template refers to and its component does not have. -/
inductive Problem where
  | noProperty (path owner : String)
  | noMethod (name owner : String)
  | noListener (name tag owner : String)
  | noAttributeProperty (property tag owner : String)
  | noItems (owner : String)
  | noCallback (role name owner : String)
  deriving DecidableEq, Repr

def Problem.message : Problem → String
  | noProperty path owner => s!"Unable to find property '{path}' in element {owner}"
  | noMethod name owner => s!"Unable to find method '{name}' in element {owner}"
  | noListener name tag owner =>
    s!"Unable to find event listener '{name}' on tag '{tag}' in element {owner}"
  | noAttributeProperty property tag owner =>
    s!"Unable to find property '{property}' on tag '{tag}' in element {owner}"
  | noItems owner => s!"Unable to locate dom-repeat items property 'items' in template {owner}"
  | noCallback role name owner =>
    s!"Unable to find dom-repeat {role} function '{name}' in element {owner}"

/-- A problem of one document, on the tag it was found on. -/
structure Warning where
  document : String
  tag : String
  problem : Problem
  deriving DecidableEq, Repr

/-- The wording of a warning. -/
def Warning.message (w : Warning) : String :=
  w.problem.message

def Warning.line (w : Warning) : String :=
  s!"{w.document} <{w.tag}>: {w.message}"

end Relabel
