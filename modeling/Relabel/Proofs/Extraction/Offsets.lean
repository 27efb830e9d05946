import Relabel.Proofs.Extraction.Resolution
import Relabel.Proofs.Markup.Accounts

/-!
# Usages know the bytes they come from

Where a document was read from the text that is walked, the text has at the span of each usage what
the usage names: trimming, negation, suffixes of paths, events and the parts of an attribute name are
all taken off at the right byte. Each byte of the text must have a word of its own.
-/

namespace Relabel
open Text
open Markup (Node Head Attribute Document IsText Occurs preorderOf)
variable {site : Site} {document : Document} {d : DocumentUsages} {t : TemplateUsages}
  {fs : List Frame} {u : Usage} {id source : String} {v p : Piece}

/-- A text has at the span of a usage what the usage names; an entry of an `observe` list is a path of
the item of the innermost loop. A span that is sliced lies between characters of the text. -/
def Usage.Placed (cs : List Char) (fs : List Frame) : Usage → Prop
  | .path span name _ .expression => slice? cs span = some name.toList
  | .path span name _ .observed =>
    ∃ f entry, fs.getLast? = some f ∧ slice? cs span = some entry ∧
      name = f.item.name ++ "." ++ .ofList entry
  | .call span name .. => slice? cs span = some name.toList
  | .listener span method _ => slice? cs span = some method.toList
  | .attributeName span _ _ property =>
    ∃ name, slice? cs span = some name ∧ camelCase (lowercase (.ofList name)) = property
  | .loop span .. | .dataFlow span .. | .callback _ span .. => ∃ text, slice? cs span = some text
  | .literal _ => True

theorem Markup.IsText.stands (hv : IsText document.children v)
    (h : Markup.read id source = .ok document) : v.Stands 0 source.toList := by
  rcases hv with hv | ⟨head, children, he, a, ha, hv⟩
  · exact (Markup.stands_of_read h _ hv).1
  · exact (((Markup.stands_of_read h _ he).on ha).value hv)

theorem Markup.Occurs.stands (hp : Occurs document.children p)
    (h : Markup.read id source = .ok document) : p.Stands 0 source.toList := by
  obtain ⟨v, hv, hpv⟩ := hp
  exact hpv.trans (hv.stands h)

theorem Markup.stands_startTag {head : Head} {children : List Node}
    (he : .element head children ∈ preorderOf document.children) (h : Markup.read id source = .ok document) :
    ∃ p : Piece, p.span = head.startTag ∧ p.Stands 0 source.toList := by
  obtain ⟨before, tag, after, hsource, hspan, -⟩ := Markup.stands_of_read h _ he
  refine ⟨.located (size before) tag, hspan.symm, before, tag, after, hsource, ?_⟩
  rw [Nat.zero_add]

/-- A part of an attribute name stands in the text. -/
theorem Markup.stands_part {head : Head} {children : List Node} {a : Attribute} {x name y : List Char}
    (he : .element head children ∈ preorderOf document.children) (ha : a ∈ head.attributes)
    (hname : a.name.text.toList = x ++ name ++ y) (h : Markup.read id source = .ok document) :
    (Piece.located (a.name.span.start + size x) name).Stands 0 source.toList := by
  have hpart := Piece.stands_located a.name.span.start x name y
  rw [← hname] at hpart
  exact hpart.trans ((Markup.stands_of_read h _ he).on ha).name

/-- Everything in a template that was extracted from a document has a span in the text that the document
was read from, and names what the text has there. -/
theorem placed_of_extracts (hfit : size site.source.toList < UInt32.size)
    (hread : Markup.read id site.source = .ok document) (h : site.Extracts document d)
    (ht : t ∈ d.templates) (hu : Within t.usages fs u) : u.Placed site.source.toList fs := by
  cases Site.origin_of_within h ht hu with
  | path hp => exact (hp.occurs.stands hread).slice? hfit
  | @observed p q f hp hf =>
    exact ⟨f, p.text.toList, hf, (hp.occurs.stands hread).slice? hfit, by rw [String.ofList_toList]⟩
  | variableName hp => exact (hp.occurs.stands hread).slice? hfit
  | callbackName hp => exact (hp.occurs.stands hread).slice? hfit
  | call hp => exact (hp.occurs.stands hread).slice? hfit
  | literal => trivial
  | loop he =>
    obtain ⟨p, hspan, hp⟩ := Markup.stands_startTag he hread
    exact ⟨p.text.toList, hspan ▸ hp.slice? hfit⟩
  | @attributeName head children a x name y _ _ he ha hname =>
    have hslice := (Markup.stands_part he ha hname hread).slice? hfit
    rw [Piece.toList_text_located] at hslice
    exact ⟨name, hslice, rfl⟩
  | listener hp => exact (hp.occurs.stands hread).slice? hfit
  | dataFlow hv => exact ⟨_, (hv.stands hread).slice? hfit⟩
  | callback hp => exact ⟨_, (hp.stands hread).slice? hfit⟩

theorem read_list : Markup.read "d" listSite.source = .ok listDocument := by
  have htokens : (Markup.tokens 0 listSite.source.toList).toOption = some
      [.startTag ⟨"template", [], ⟨0, 10⟩, ⟨0, 10⟩⟩ false,
        .startTag ⟨"dom-repeat", [⟨⟨"items", ⟨22, 27⟩⟩, some ⟨"[[xs]]", ⟨29, 35⟩⟩⟩], ⟨10, 37⟩,
          ⟨10, 37⟩⟩ false,
        .text ⟨"[[item.a]]", ⟨37, 47⟩⟩, .endTag "dom-repeat" ⟨47, 60⟩,
        .endTag "template" ⟨60, 71⟩] := by
    decide +kernel
  cases h : Markup.tokens 0 listSite.source.toList with
  | error e => rw [h] at htokens; cases htokens
  | ok ts =>
    rw [h] at htokens
    obtain rfl := Option.some.inj htokens
    exact Markup.read_eq_ok h "d"

/-- The path of an item, in the text of its template. -/
theorem placed_of_extracts_item :
    size listSite.source.toList < UInt32.size ∧ Markup.read "d" listSite.source = .ok listDocument ∧
      ∃ d t u, listSite.Extracts listDocument d ∧ t ∈ d.templates ∧ Within t.usages [listFrame] u ∧
        u.reference? = some ("item.a", .item "item") ∧
        u.Placed listSite.source.toList [listFrame] := by
  obtain ⟨d, t, u, h, ht, hu, hq⟩ := exists_extracts_list
  have hfit : size listSite.source.toList < UInt32.size := by decide
  exact ⟨hfit, read_list, d, t, u, h, ht, hu, hq, placed_of_extracts hfit read_list h ht hu⟩

end Relabel
