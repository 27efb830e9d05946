import Relabel.Proofs.Markup.Accounts

/-!
# Texts, values and attribute names lie apart

The names of a template are written in the texts of its document, in the values of attributes and in
their names. These pieces of a document below `2 ^ 32` bytes lie one after another (`ordered_carriers`):
each inside its text node or its start tag, a value behind the name of its attribute.
-/

namespace Relabel.Markup
open Text
/-- A piece of a document in which names are written. -/
inductive Carrier where
  /-- The name of an attribute. -/
  | name (piece : Piece)
  /-- A text node or the value of an attribute. -/
  | text (piece : Piece)

def Carrier.piece : Carrier → Piece
  | name piece => piece
  | text piece => piece

/-- The name of an attribute and its value. -/
def Attribute.carriers (a : Attribute) : List Carrier :=
  .name a.name :: (a.value.map Carrier.text).toList

/-- The pieces of a node that carry names, without those of its content. -/
def Node.carriers : Node → List Carrier
  | .comment _ => []
  | .text piece => [.text piece]
  | .element head _ => head.attributes.flatMap Attribute.carriers

variable {a : Attribute} {n : Node} {c e : Carrier} {cs : List Char} {k : Nat} {id source : String}
  {document : Document}

theorem mem_carriers_of_name {head : Head} {children ns : List Node}
    (he : .element head children ∈ preorderOf ns) (ha : a ∈ head.attributes) :
    .name a.name ∈ (preorderOf ns).flatMap Node.carriers :=
  List.mem_flatMap.2 ⟨_, he, List.mem_flatMap.2 ⟨a, ha, List.mem_cons_self ..⟩⟩

/-! ### Order -/

theorem Attribute.On.ordered (h : a.On k cs) (hfit : k + size cs < UInt32.size) :
    a.carriers.Pairwise fun c d => c.piece.Before d.piece := by
  cases hv : a.value with
  | none => simp [Attribute.carriers, hv]
  | some v =>
    have hbefore : a.name.Before v := Nat.le_of_lt (h.name_lt_value hfit hv)
    simpa [Attribute.carriers, hv, Carrier.piece] using hbefore

theorem Attribute.On.inside (h : a.On k cs) (hfit : k + size cs < UInt32.size) (hc : c ∈ a.carriers) :
    a.extent.start ≤ c.piece.span.start ∧ c.piece.span.stop ≤ a.extent.stop := by
  have hname := h.name.stop_eq hfit
  cases hv : a.value with
  | none =>
    obtain rfl : c = .name a.name := by simpa [Attribute.carriers, hv] using hc
    simp [Attribute.extent, hv, Carrier.piece]
  | some v =>
    have hlt := h.name_lt_value hfit hv
    have hvalue := (h.value hv).stop_eq hfit
    obtain rfl | rfl : c = .name a.name ∨ c = .text v := by simpa [Attribute.carriers, hv] using hc
    · simp only [Attribute.extent, hv, Carrier.piece, Option.map_some, Option.getD_some]
      omega
    · simp only [Attribute.extent, hv, Carrier.piece, Option.map_some, Option.getD_some]
      omega

theorem Node.Stands.inside (h : n.Stands cs) (hfit : size cs < UInt32.size) (hc : c ∈ n.carriers) :
    n.mark.start ≤ c.piece.span.start ∧ c.piece.span.stop ≤ n.mark.stop := by
  cases n with
  | comment span => cases hc
  | text piece =>
    obtain rfl := List.mem_singleton.1 hc
    exact ⟨Nat.le_refl _, Nat.le_refl _⟩
  | element head children =>
    obtain ⟨a, ha, hc⟩ := List.mem_flatMap.1 hc
    obtain ⟨hstart, hstop⟩ := (h.ascending hfit).within (List.mem_map_of_mem ha)
    obtain ⟨hstart', hstop'⟩ := (h.on ha).inside (by omega) hc
    exact ⟨Nat.le_trans hstart hstart', Nat.le_trans hstop' hstop⟩

theorem Node.Stands.ordered (h : n.Stands cs) (hfit : size cs < UInt32.size) :
    n.carriers.Pairwise fun c d => c.piece.Before d.piece := by
  cases n with
  | comment span => exact .nil
  | text piece => exact List.pairwise_singleton ..
  | element head children =>
    have hfit' : 0 + size cs < UInt32.size := by omega
    refine List.pairwise_flatMap.2 ⟨fun a ha => (h.on ha).ordered hfit', ?_⟩
    refine (List.pairwise_map.1 (h.ascending hfit).pairwise).imp_of_mem fun ha hb hab c hc d hd => ?_
    exact Nat.le_trans ((h.on ha).inside hfit' hc).2 (Nat.le_trans hab ((h.on hb).inside hfit' hd).1)

/-- The texts, values and attribute names of a document that is read lie one after another. -/
theorem ordered_carriers (hfit : size source.toList < UInt32.size) (h : read id source = .ok document) :
    ((preorderOf document.children).flatMap Node.carriers).Pairwise fun c d =>
      c.piece.Before d.piece := by
  obtain ⟨ts, hcuts, hchildren⟩ := ofTokens_of_read h
  have hstands := stands_of_read h
  have hmarks := (accounts_of_cuts hfit hcuts hchildren hstands).marks
  refine List.pairwise_flatMap.2 ⟨fun n hn => (hstands n hn).ordered hfit, ?_⟩
  refine (List.pairwise_map.1 hmarks.pairwise).imp_of_mem fun hm hn hmn c hc d hd => ?_
  exact Nat.le_trans ((hstands _ hm).inside hfit hc).2
    (Nat.le_trans hmn ((hstands _ hn).inside hfit hd).1)

theorem eq_or_apart_of_mem_carriers (hfit : size source.toList < UInt32.size)
    (h : read id source = .ok document)
    (hc : c ∈ (preorderOf document.children).flatMap Node.carriers)
    (he : e ∈ (preorderOf document.children).flatMap Node.carriers) :
    c = e ∨ c.piece.span.Apart e.piece.span :=
  Span.eq_or_apart (ordered_carriers hfit h) hc he

end Relabel.Markup
