import Relabel.Recovery

/-!
# Replacement

Carries out what a renamed program says on the documents it was made from. A program that cannot
be read fails the run; anything else gives up one document only.
-/

namespace Relabel

/-- A document after its renamings. -/
structure Replaced where
  document : String
  text : Mapped
  replacements : Nat
  deriving DecidableEq, Repr, Inhabited

/-- What a run gives, in the order of the documents. -/
structure Replacement where
  documents : List Replaced
  failures : List Failure
  deriving Repr, Inhabited

/-- The outcome for one document. -/
def Recovery.replace (r : Recovery) (d : SourceDocument) : Except Failure Replaced := do
  let renamings ← r.renamings d.id
  let text ← d.rename renamings
  return ⟨d.id, text, renamings.length⟩

/-- The document that came out, if one did. -/
def replaced? : Except Failure Replaced → Option Replaced
  | .ok document => some document
  | .error _ => none

/-- Why a document was given up, if it was. -/
def failure? : Except Failure Replaced → Option Failure
  | .ok _ => none
  | .error failure => some failure

/-- Carries out the renamings of a program on some documents. -/
def replaceAll (documents : List SourceDocument) (program : String) (options : Options) :
    Except Failure Replacement := do
  let recovery ← Recovery.read options.recordingObject program
  let outcomes := documents.map recovery.replace
  return ⟨outcomes.filterMap replaced?, outcomes.filterMap failure?⟩

end Relabel
