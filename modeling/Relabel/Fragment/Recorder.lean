/-!
# Recorders

The six functions that an emitted program calls to record a reference.
-/

namespace Relabel

/-- A recording function. -/
inductive Recorder where
  | identifier
  | method
  | listener
  | attributeName
  | observedPath
  | itemProperty
  deriving DecidableEq, Repr, Inhabited

namespace Recorder

/-- Every recorder. -/
def all : List Recorder :=
  [identifier, method, listener, attributeName, observedPath, itemProperty]

/-- The property of the recording object that holds the recorder. -/
def name : Recorder → String
  | identifier => "identifier"
  | method => "method"
  | listener => "eventListener"
  | attributeName => "attribute"
  | observedPath => "domRepeatObserve"
  | itemProperty => "domRepeatProperty"

def ofName? (name : String) : Option Recorder :=
  all.find? (·.name == name)

theorem ofName?_name (r : Recorder) : ofName? r.name = some r := by
  cases r <;> decide

end Recorder

end Relabel
