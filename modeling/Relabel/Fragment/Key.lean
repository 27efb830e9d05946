import Relabel.Text.Cut

/-!
# Keys of fragments

The property of `window` that holds the program of a document.
-/

namespace Relabel.Fragment

def keyStart : String :=
  "polymer-rename:"

/-- The key of the fragment of a document. -/
def key (document : String) : String :=
  keyStart ++ document

/-- Whether a text is the key of a fragment. -/
def isKey (text : String) : Bool :=
  (Text.stripPrefix? keyStart.toList text.toList).isSome

end Relabel.Fragment
