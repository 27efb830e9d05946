import Relabel.Diagnostic
import Relabel.Markup.Tree

/-!
# Location checks

Every later offset comes from the spans of attributes, so they have to agree with the text.
-/

namespace Relabel.Markup

/-- Whether a piece is the text of the document at its span. -/
def standsIn (source : List Char) (p : Piece) : Bool :=
  Text.slice? source p.span == some p.text.toList

/-- Whether the name and the value of an attribute stand where their spans say. -/
def Attribute.standsIn (source : List Char) (a : Attribute) : Bool :=
  Markup.standsIn source a.name && a.value.all (Markup.standsIn source)

/-- Fails if an attribute does not stand where its spans say. -/
def checkLocation (document source tag : String) (a : Attribute) : Except Failure Unit :=
  if a.standsIn source.toList then .ok ()
  else
    let place := Text.Place.ofOffset source a.name.span.start
    .error (.malformedLocation document tag a.name.text place)

end Relabel.Markup
