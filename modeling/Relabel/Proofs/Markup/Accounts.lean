import Relabel.Proofs.Markup.Tree

/-!
# The tree of a document accounts for every byte

`Accounts cs ns`: every piece of the tree `ns` stands in the text `cs`, attributes lie inside their
start tags and children inside their elements, and what texts, comments and start tags leave of the
text are end tags. The tree of a document that is read does, if every offset of the document has a word
of its own: `accounts_of_cuts`. That pieces stand in the text needs no bound (`stands_of_read`).
-/

namespace Relabel.Markup
open Text
variable {n : Node} {ns : List Node} {t : Token} {ts : List Token} {head : Head}
  {children : List Node} {lo : Nat} {cs ds before : List Char} {a : Attribute} {id source : String}
  {document : Document}

/-- The bytes of a node without its content: of an element those of its start tag. -/
def Node.mark : Node → Span
  | .comment span => span
  | .text piece => piece.span
  | .element head _ => head.startTag

/-- In a text that begins at `n`, all bytes outside the spans `ss` make up end tags. -/
inductive EndTagsBetween : Nat → List Char → List Span → Prop where
  | nil (n : Nat) : EndTagsBetween n [] []
  | span {n : Nat} {cs rest : List Char} {ss : List Span} (h : EndTagsBetween (n + size cs) rest ss) :
      EndTagsBetween n (cs ++ rest) (⟨n, n + size cs⟩ :: ss)
  | endTag {n : Nat} {cs rest : List Char} {ss : List Span} (ht : IsEndTag cs)
      (h : EndTagsBetween (n + size cs) rest ss) : EndTagsBetween n (cs ++ rest) ss

/-- A node is what a text has where the node says: a text is not empty, and the attributes of an
element stand one after another in its start tag. -/
def Node.Stands (cs : List Char) : Node → Prop
  | .comment span => ∃ p : Piece, p.Stands 0 cs ∧ span = p.span
  | .text piece => piece.Stands 0 cs ∧ piece.text ≠ ""
  | .element head _ => ∃ before tag after, cs = before ++ tag ++ after ∧
      head.startTag = (Piece.located (size before) tag).span ∧ AllOn (size before) tag head.attributes

/-- A tree accounts for every byte of a text. -/
structure Accounts (cs : List Char) (ns : List Node) : Prop where
  /-- Texts, attribute names and attribute values are what the text has at their spans. -/
  texts : ∀ piece, .text piece ∈ preorderOf ns → standsIn cs piece = true ∧ piece.text ≠ ""
  names : ∀ head children, .element head children ∈ preorderOf ns → ∀ a ∈ head.attributes,
    a.standsIn cs = true ∧ a.name.text ≠ "" ∧ ∀ v ∈ a.value, a.name.span.stop < v.span.start
  /-- Attributes lie one after another inside the start tag. -/
  attributes : ∀ head children, .element head children ∈ preorderOf ns →
    Span.Ascending head.startTag.start head.startTag.stop (head.attributes.map Attribute.extent)
  /-- Children lie one after another between the start tag and the end of the element. -/
  children : ∀ head children, .element head children ∈ preorderOf ns →
    head.span.start = head.startTag.start ∧
      Span.Ascending head.startTag.stop head.span.stop (children.map Node.span)
  /-- Texts, comments and start tags lie one after another in the text. -/
  marks : Span.Ascending 0 (size cs) ((preorderOf ns).map Node.mark)
  /-- What they leave of the text are end tags. -/
  rest : EndTagsBetween 0 cs ((preorderOf ns).map Node.mark)

theorem Node.mark_shallow (n : Node) : n.shallow.mark = n.mark := by cases n <;> rfl

theorem Node.stands_shallow : n.shallow.Stands cs ↔ n.Stands cs := by cases n <;> exact Iff.rfl

theorem Node.Stands.on (h : Node.Stands cs (.element head children)) (ha : a ∈ head.attributes) : a.On 0 cs := by
  obtain ⟨before, tag, after, rfl, -, hall⟩ := h
  refine (Attribute.On.append_left ?_).append_right after
  rw [Nat.zero_add]
  exact hall.on ha

/-- The attributes of an element lie one after another inside its start tag. -/
theorem Node.Stands.ascending (h : Node.Stands cs (.element head children)) (hfit : size cs < UInt32.size) :
    Span.Ascending head.startTag.start head.startTag.stop (head.attributes.map Attribute.extent) := by
  obtain ⟨before, tag, after, rfl, hstart, hall⟩ := h
  simp only [size_append] at hfit
  have hlt : size before + size tag < UInt32.size := by omega
  rw [hstart, Piece.located_of_lt hlt]
  exact hall.ascending hlt

/-- A token stands on its text; so does the node that it begins. -/
theorem Token.On.stands (h : t.On (size before) cs) (hne : cs ≠ []) (hn : n ∈ t.nodes) :
    n.Stands (before ++ cs ++ ds) := by
  have hpiece : (Piece.located (size before) cs).Stands 0 (before ++ cs ++ ds) := by
    simpa using Piece.stands_located 0 before cs ds
  cases t with
  | comment span =>
    obtain rfl := List.mem_singleton.1 hn
    exact ⟨_, hpiece, h⟩
  | text piece =>
    obtain rfl := List.mem_singleton.1 hn
    obtain rfl : piece = _ := h
    refine ⟨hpiece, fun h0 => hne ?_⟩
    simpa [Piece.located] using h0
  | endTag tag span => cases hn
  | startTag head selfClosing =>
    obtain rfl := List.mem_singleton.1 hn
    obtain ⟨hstart, -, hall⟩ := h
    exact ⟨before, cs, ds, rfl, hstart, hall⟩

theorem Cuts.stands (h : Cuts (size before) cs ts) :
    ∀ n ∈ ts.flatMap Token.nodes, n.Stands (before ++ cs) := by
  generalize hlo : size before = lo at h
  induction h generalizing before with
  | nil => exact fun n hn => by cases hn
  | cons hne ht _ ih =>
    subst hlo
    intro n hn
    rw [← List.append_assoc]
    rcases List.mem_append.1 hn with hn | hn
    · exact ht.stands hne hn
    · exact ih (size_append ..) n hn

theorem Token.On.mark_eq (h : t.On lo cs) (hn : n ∈ t.nodes) : n.mark = .ofOffsets lo (lo + size cs) := by
  cases t with
  | comment span =>
    obtain rfl := List.mem_singleton.1 hn
    exact h
  | text piece =>
    obtain rfl := List.mem_singleton.1 hn
    exact congrArg Piece.span h
  | endTag tag span => cases hn
  | startTag head selfClosing =>
    obtain rfl := List.mem_singleton.1 hn
    exact h.1

/-- A token that begins no node is an end tag; any other begins one. -/
theorem Token.On.nodes_eq (h : t.On lo cs) : (∃ n, t.nodes = [n]) ∨ t.nodes = [] ∧ IsEndTag cs := by
  cases t with
  | endTag tag span => exact .inr ⟨rfl, h.2⟩
  | _ => exact .inl ⟨_, rfl⟩

theorem Cuts.ascending (h : Cuts lo cs ts) (hfit : lo + size cs < UInt32.size) :
    Span.Ascending lo (lo + size cs) ((ts.flatMap Token.nodes).map Node.mark) := by
  induction h with
  | nil n => exact Nat.le_refl n
  | @cons n cs rest t ts hne ht _ ih =>
    have hpos : 0 < size cs := Nat.pos_of_ne_zero (mt size_eq_zero.1 hne)
    rw [size_append, ← Nat.add_assoc] at hfit ⊢
    rw [List.flatMap_cons, List.map_append]
    refine Span.Ascending.append ?_ (ih hfit)
    obtain ⟨m, hm⟩ | ⟨hm, -⟩ := ht.nodes_eq
    · have hmark := ht.mark_eq (hm ▸ List.mem_singleton_self m)
      rw [Span.ofOffsets_of_lt (Nat.le_add_right ..) (by omega)] at hmark
      rw [hm, List.map_singleton, hmark]
      exact .singleton (Nat.le_refl n) (Nat.lt_add_of_pos_right hpos) (Nat.le_refl _)
    · rw [hm]
      exact Nat.le_add_right ..

theorem Cuts.endTagsBetween (h : Cuts lo cs ts) (hfit : lo + size cs < UInt32.size) :
    EndTagsBetween lo cs ((ts.flatMap Token.nodes).map Node.mark) := by
  induction h with
  | nil n => exact .nil n
  | @cons n cs rest t ts hne ht _ ih =>
    rw [size_append, ← Nat.add_assoc] at hfit
    rw [List.flatMap_cons, List.map_append]
    obtain ⟨m, hm⟩ | ⟨hm, hend⟩ := ht.nodes_eq
    · have hmark := ht.mark_eq (hm ▸ List.mem_singleton_self m)
      rw [Span.ofOffsets_of_lt (Nat.le_add_right ..) (by omega)] at hmark
      rw [hm, List.map_singleton, hmark]
      exact .span (ih hfit)
    · rw [hm]
      exact .endTag hend (ih hfit)

theorem Attribute.On.standsIn (h : a.On 0 cs) (hfit : size cs < UInt32.size) : a.standsIn cs = true := by
  rw [Attribute.standsIn, Bool.and_eq_true, Option.all_eq_true]
  exact ⟨h.name.standsIn hfit, fun v hv => (h.value hv).standsIn hfit⟩

/-- Reading succeeds where cutting into tokens does, with the tree of the tokens. -/
theorem ofTokens_of_read (h : read id source = .ok document) :
    ∃ ts, Cuts 0 source.toList ts ∧
      document.children = ofTokens (Text.size source.toList) ts := by
  unfold read at h
  split at h
  · next ts hts =>
    obtain rfl := Except.ok.inj h
    exact ⟨ts, cuts_of_tokens hts, rfl⟩
  · cases h

/-- Every node of a document that is read stands in it. -/
theorem stands_of_read (h : read id source = .ok document) :
    ∀ n ∈ preorderOf document.children, n.Stands source.toList := by
  obtain ⟨ts, hcuts, hchildren⟩ := ofTokens_of_read h
  intro n hn
  obtain ⟨t, ht, m, hm, hmn⟩ := exists_token_of_mem (hchildren ▸ hn)
  rw [← Node.stands_shallow, ← hmn, Node.stands_shallow]
  have hcuts' : Cuts (size []) source.toList ts := hcuts
  exact hcuts'.stands m (List.mem_flatMap.2 ⟨t, ht, hm⟩)

theorem accounts_of_cuts (hfit : size cs < UInt32.size) (hcuts : Cuts 0 cs ts)
    (hns : ns = ofTokens (size cs) ts) (hstands : ∀ n ∈ preorderOf ns, n.Stands cs) : Accounts cs ns := by
  have hmarks : (preorderOf ns).map Node.mark = (ts.flatMap Token.nodes).map Node.mark := by
    have h := congrArg (List.map Node.mark) (shallowsOf_ofTokens (size cs) ts)
    rw [shallowsOf, ← hns, List.map_map, List.map_map] at h
    simpa [Function.comp_def, Node.mark_shallow] using h
  have hlaid := laid_ofTokens hcuts hfit
  refine ⟨fun piece hp => ?_, fun head children he a ha => ?_, fun head children he => ?_,
    fun head children he => ?_, ?_, ?_⟩
  · obtain ⟨hpiece, hne⟩ := hstands _ hp
    exact ⟨hpiece.standsIn hfit, hne⟩
  · have hon := (hstands _ he).on ha
    exact ⟨hon.standsIn hfit, hon.named, fun v hv => hon.name_lt_value (by omega) hv⟩
  · exact (hstands _ he).ascending hfit
  · obtain ⟨n, hn, hen⟩ := mem_preorderOf.1 (hns ▸ he)
    exact hlaid.nests _ (mem_preorderOf.2 ⟨n, List.mem_reverse.2 hn, hen⟩)
  · rw [hmarks]
    simpa using hcuts.ascending (by omega)
  · rw [hmarks]
    exact hcuts.endTagsBetween (by omega)

end Relabel.Markup
