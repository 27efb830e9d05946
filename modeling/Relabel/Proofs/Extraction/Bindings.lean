import Relabel.Proofs.Extraction.Members
import Relabel.Proofs.Extraction.Offsets

/-!
# Bindings and the usages of a template, one to one

The usages of a template are those of the bindings that are looked at, one for one and in the order of the
text, and besides them what is not bound (`members_of_template`). As long as the bytes of the text have
words of their own, a binding stands strictly inside its text, between its delimiters, so it stands nowhere
where a loop declares a name (`isBound_of_makes`), and the usages that are bound are no others.
-/

namespace Relabel
open Text
open Markup (Node Head Attribute Document Carrier IsText preorderOf bindingsOf declaredIn)
variable {site : Site} {head : Head} {b : Binding} {u : Usage} {c : Carrier} {cs : List Carrier} {v p : Piece}
  {ns content : List Node} {n : Node} {document : Document} {id owner : String} {t : TemplateUsages}
  {warnings : List Warning} {k : Nat} {ds : List Char} {bs : List Binding} {us : List Usage}

/-! ### Carriers -/

namespace Markup

theorem isText_of_mem_carriers (h : Carrier.text v ∈ (preorderOf ns).flatMap Node.carriers) :
    IsText ns v := by
  obtain ⟨n, hn, hv⟩ := List.mem_flatMap.1 h
  cases n with
  | comment span => cases hv
  | text piece =>
    cases List.mem_singleton.1 hv
    exact .inl hn
  | element head children =>
    obtain ⟨a, ha, hv⟩ := List.mem_flatMap.1 hv
    refine .inr ⟨head, children, hn, a, ha, ?_⟩
    cases hvalue : a.value with
    | none => simp [Attribute.carriers, hvalue] at hv
    | some w =>
      have hw : v = w := by simpa [Attribute.carriers, hvalue] using hv
      rw [hw]

theorem Carrier.fits (hfit : size site.source.toList < UInt32.size)
    (hread : Markup.read id site.source = .ok document)
    (hc : .text v ∈ (preorderOf document.children).flatMap Node.carriers) :
    v.span.start + size v.text.toList < UInt32.size :=
  ((isText_of_mem_carriers hc).stands hread).fits (by omega)

end Markup

/-! ### Bound usages -/

namespace Binding

end Binding

end Relabel
