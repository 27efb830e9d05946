import Relabel.Markup.Reader
import Relabel.Proofs.Markup.Token

/-!
# The tree that tokens spell

Two invariants of the tree builder. What it has read so far, in pre-order and without the content of
elements, is the nodes of the tokens (`shallows_step`); closing an element changes nothing of that. And
the children of every element, open or closed, lie one after another behind its start tag
(`Builder.Nested`): an element that an end tag closes from outside ends where that end tag begins.
-/

namespace Relabel.Markup
open Text
variable {n m : Node} {ns ms : List Node} {t : Token} {ts : List Token} {b : Builder} {o : Opened}
  {os : List Opened} {head : Head} {children : List Node} {lo hi stop : Nat} {cs before : List Char}

mutual

/-- A node and all nodes inside it, an element before its content. -/
def Node.preorder : Node → List Node
  | .comment span => [.comment span]
  | .text piece => [.text piece]
  | .element head children => .element head children :: preorderOf children

/-- Some nodes and all nodes inside them. -/
def preorderOf : List Node → List Node
  | [] => []
  | n :: ns => n.preorder ++ preorderOf ns

end

theorem preorderOf_append (ns ms : List Node) :
    preorderOf (ns ++ ms) = preorderOf ns ++ preorderOf ms := by
  induction ns with
  | nil => rfl
  | cons n ns ih => rw [List.cons_append, preorderOf, preorderOf, ih, List.append_assoc]

theorem preorderOf_singleton (n : Node) : preorderOf [n] = n.preorder := by
  rw [preorderOf, preorderOf, List.append_nil]

theorem mem_preorderOf : m ∈ preorderOf ns ↔ ∃ n ∈ ns, m ∈ n.preorder := by
  induction ns with
  | nil => simp [preorderOf]
  | cons n ns ih => simp [preorderOf, ih]

theorem Node.mem_preorder_self (n : Node) : n ∈ n.preorder := by
  cases n <;> simp [Node.preorder]

mutual

theorem Node.mem_preorder_trans : ∀ {k : Node}, n ∈ k.preorder → m ∈ n.preorder → m ∈ k.preorder
  | .comment span, hn, hm => by
    obtain rfl := List.mem_singleton.1 hn
    exact hm
  | .text piece, hn, hm => by
    obtain rfl := List.mem_singleton.1 hn
    exact hm
  | .element head children, hn, hm => by
    rcases List.mem_cons.1 hn with rfl | hn
    · exact hm
    · exact List.mem_cons_of_mem _ (mem_preorderOf_trans hn hm)

theorem mem_preorderOf_trans : ∀ {ks : List Node}, n ∈ preorderOf ks → m ∈ n.preorder →
    m ∈ preorderOf ks
  | [], hn, _ => by cases hn
  | k :: ks, hn, hm => by
    rcases List.mem_append.1 hn with hn | hn
    · exact List.mem_append_left _ (Node.mem_preorder_trans hn hm)
    · exact List.mem_append_right _ (mem_preorderOf_trans hn hm)

end

mutual

theorem Node.preorder_sublist : ∀ {m : Node}, n ∈ m.preorder → n.preorder.Sublist m.preorder
  | .comment _, h => by
    obtain rfl := List.mem_singleton.1 h
    exact .refl _
  | .text _, h => by
    obtain rfl := List.mem_singleton.1 h
    exact .refl _
  | .element head children, h => by
    rcases List.mem_cons.1 h with rfl | h
    · exact .refl _
    · exact (preorder_sublist_of_mem h).cons _

theorem preorder_sublist_of_mem : ∀ {ms : List Node}, n ∈ preorderOf ms → n.preorder.Sublist (preorderOf ms)
  | [], h => nomatch h
  | m :: ms, h => by
    rcases List.mem_append.1 h with h | h
    · exact (Node.preorder_sublist h).trans (List.sublist_append_left ..)
    · exact (preorder_sublist_of_mem h).trans (List.sublist_append_right ..)

end

theorem preorderOf_sublist (h : .element head children ∈ preorderOf ns) :
    (preorderOf children).Sublist (preorderOf ns) :=
  (List.sublist_cons_self _ _).trans (preorder_sublist_of_mem h)

/-- The content of an element of a tree belongs to the tree. -/
theorem mem_preorderOf_of_child (h : .element head children ∈ preorderOf ns)
    (hm : m ∈ preorderOf children) : m ∈ preorderOf ns :=
  mem_preorderOf_trans h (List.mem_cons_of_mem _ hm)

mutual

theorem Node.mem_elements : ∀ {n : Node}, (head, children) ∈ n.elements →
    .element head children ∈ n.preorder
  | .comment _, h => by cases h
  | .text _, h => by cases h
  | .element head children, h => by
    rcases List.mem_cons.1 h with h | h
    · obtain ⟨rfl, rfl⟩ := Prod.mk.inj h
      exact List.mem_cons_self ..
    · exact List.mem_cons_of_mem _ (mem_elementsOf h)

theorem mem_elementsOf : ∀ {ns : List Node}, (head, children) ∈ elementsOf ns →
    .element head children ∈ preorderOf ns
  | [], h => by cases h
  | n :: ns, h => by
    rcases List.mem_append.1 h with h | h
    · exact List.mem_append_left _ (Node.mem_elements h)
    · exact List.mem_append_right _ (mem_elementsOf h)

end

/-! ### What was read -/

/-- A node as its first token gives it, before any content and any end of an element. -/
def Node.shallow : Node → Node
  | .comment span => .comment span
  | .text piece => .text piece
  | .element head _ => .element { head with span := head.startTag } []

/-- The node that a token begins. -/
def Token.nodes : Token → List Node
  | .comment span => [.comment span]
  | .text piece => [.text piece]
  | .endTag _ _ => []
  | .startTag head _ => [.element head []]

/-- Some nodes and all inside them, without content. -/
def shallowsOf (ns : List Node) : List Node :=
  (preorderOf ns).map Node.shallow

theorem shallowsOf_append (ns ms : List Node) :
    shallowsOf (ns ++ ms) = shallowsOf ns ++ shallowsOf ms := by
  rw [shallowsOf, preorderOf_append, List.map_append]
  rfl

theorem shallowsOf_element (head : Head) (children : List Node) :
    shallowsOf [.element head children] =
      Node.shallow (.element head []) :: shallowsOf children := by
  rw [shallowsOf, preorderOf_singleton, Node.preorder, List.map_cons]
  rfl

namespace Builder

/-- What open elements hold, the outermost first. -/
def openedShallows : List Opened → List Node
  | [] => []
  | o :: os => openedShallows os ++ Node.shallow (.element o.head []) :: shallowsOf o.children.reverse

/-- All that was read so far, without content. -/
def shallows (b : Builder) : List Node :=
  shallowsOf b.roots.reverse ++ openedShallows b.opened

theorem shallows_add (b : Builder) (n : Node) : (b.add n).shallows = b.shallows ++ shallowsOf [n] := by
  obtain ⟨roots, opened⟩ := b
  cases opened with
  | nil => simp [add, shallows, openedShallows, shallowsOf_append]
  | cons o os => simp [add, shallows, openedShallows, shallowsOf_append]

theorem shallows_close (b : Builder) (stop : Nat) : (b.close stop).shallows = b.shallows := by
  obtain ⟨roots, opened⟩ := b
  cases opened with
  | nil => rfl
  | cons o os =>
    rw [close, shallows_add, shallowsOf_element]
    simp [shallows, openedShallows, Node.shallow]

theorem shallows_closeMany (stop k : Nat) (b : Builder) :
    (closeMany stop k b).shallows = b.shallows := by
  induction k generalizing b with
  | zero => rfl
  | succ k ih => rw [closeMany, ih, shallows_close]

theorem shallows_step (b : Builder) (t : Token) :
    (b.step t).shallows = b.shallows ++ t.nodes.map Node.shallow := by
  cases t with
  | comment span => exact shallows_add b _
  | text piece => exact shallows_add b _
  | endTag tag span =>
    rw [step, endTag, Token.nodes, List.map_nil, List.append_nil]
    split
    · rfl
    · rw [shallows_close, shallows_closeMany]
  | startTag head selfClosing =>
    rw [step]
    split
    · simp [shallows, openedShallows, Token.nodes, shallowsOf, preorderOf]
    · exact shallows_add b _

theorem shallows_foldl (b : Builder) (ts : List Token) :
    (ts.foldl step b).shallows = b.shallows ++ (ts.flatMap Token.nodes).map Node.shallow := by
  induction ts generalizing b with
  | nil => simp
  | cons t ts ih => rw [List.foldl_cons, ih, shallows_step, List.flatMap_cons, List.map_append,
      List.append_assoc]

theorem length_opened_close (b : Builder) (stop : Nat) :
    (b.close stop).opened.length = b.opened.length - 1 := by
  obtain ⟨roots, opened⟩ := b
  rcases opened with _ | ⟨o, _ | ⟨o', os⟩⟩ <;> rfl

theorem length_opened_closeMany (stop k : Nat) (b : Builder) :
    (closeMany stop k b).opened.length = b.opened.length - k := by
  induction k generalizing b with
  | zero => rfl
  | succ k ih => rw [closeMany, ih, length_opened_close, Nat.sub_sub, Nat.add_comm 1]

theorem opened_closeMany_length (stop : Nat) (b : Builder) :
    (closeMany stop b.opened.length b).opened = [] :=
  List.eq_nil_of_length_eq_zero (by rw [length_opened_closeMany, Nat.sub_self])

end Builder

/-- A tree has the nodes of its tokens, in their order. -/
theorem shallowsOf_ofTokens (size : Nat) (ts : List Token) :
    shallowsOf (ofTokens size ts) = (ts.flatMap Token.nodes).map Node.shallow := by
  have hclosed := Builder.opened_closeMany_length (size % UInt32.size) (ts.foldl Builder.step {})
  have h := Builder.shallows_closeMany (size % UInt32.size) (ts.foldl Builder.step {}).opened.length
    (ts.foldl Builder.step {})
  rw [Builder.shallows_foldl, Builder.shallows, hclosed] at h
  simpa [Builder.shallows, Builder.openedShallows, shallowsOf, preorderOf, ofTokens,
    Builder.finish] using h

theorem exists_token_of_mem {size : Nat} {ts : List Token} {n : Node} (h : n ∈ preorderOf (ofTokens size ts)) :
    ∃ t ∈ ts, ∃ m ∈ t.nodes, m.shallow = n.shallow := by
  have hmem : n.shallow ∈ shallowsOf (ofTokens size ts) := List.mem_map_of_mem h
  rw [shallowsOf_ofTokens] at hmem
  obtain ⟨m, hm, hshallow⟩ := List.mem_map.1 hmem
  obtain ⟨t, ht, hm⟩ := List.mem_flatMap.1 hm
  exact ⟨t, ht, m, hm, hshallow⟩

/-! ### Nesting -/

/-- The bytes of a node with its content. -/
def Node.span : Node → Span
  | .comment span => span
  | .text piece => piece.span
  | .element head _ => head.span

/-- The children of an element lie one after another from the end of its start tag to its own end. -/
def Node.Nests : Node → Prop
  | .element head children => head.span.start = head.startTag.start ∧
      Span.Ascending head.startTag.stop head.span.stop (children.map Node.span)
  | _ => True

/-- Nodes, last first, that lie one after another between two offsets, each with its content. -/
structure Laid (lo hi : Nat) (ns : List Node) : Prop where
  ascending : Span.Ascending lo hi (ns.reverse.map Node.span)
  nests : ∀ m ∈ preorderOf ns, m.Nests

theorem laid_nil (h : lo ≤ hi) : Laid lo hi [] :=
  ⟨h, fun m hm => by cases hm⟩

namespace Laid

theorem mono {hi' : Nat} (h : Laid lo hi ns) (hhi : hi ≤ hi') : Laid lo hi' ns :=
  ⟨h.ascending.mono (Nat.le_refl _) hhi, h.nests⟩

theorem cons {mid : Nat} (h : Laid lo mid ns) (hstart : mid ≤ n.span.start)
    (hspan : n.span.start < n.span.stop) (hstop : n.span.stop ≤ hi) (hn : ∀ m ∈ n.preorder, m.Nests) :
    Laid lo hi (n :: ns) := by
  refine ⟨?_, fun m hm => ?_⟩
  · rw [List.reverse_cons, List.map_append]
    exact h.ascending.append (.singleton hstart hspan hstop)
  · rcases List.mem_append.1 hm with hm | hm
    · exact hn m hm
    · exact h.nests m hm

end Laid

namespace Builder

/-- Open elements, innermost first, each inside the next one, and the nodes outside all of them, in a
text that was read up to `hi`. -/
def NestedIn (hi : Nat) (roots : List Node) : List Opened → Prop
  | [] => Laid 0 hi roots
  | o :: os => o.head.span.start = o.head.startTag.start ∧
      o.head.startTag.start < o.head.startTag.stop ∧ Laid o.head.startTag.stop hi o.children ∧
        NestedIn o.head.startTag.start roots os

/-- All that was read up to the byte `hi` is nested. -/
def Nested (hi : Nat) (b : Builder) : Prop :=
  NestedIn hi b.roots b.opened

namespace Nested

theorem mono (h : Nested lo b) (hhi : lo ≤ hi) : Nested hi b := by
  obtain ⟨roots, opened⟩ := b
  cases opened with
  | nil => exact Laid.mono h hhi
  | cons o os => exact ⟨h.1, h.2.1, h.2.2.1.mono hhi, h.2.2.2⟩

theorem add (h : Nested lo b) (hstart : lo ≤ n.span.start) (hspan : n.span.start < n.span.stop)
    (hstop : n.span.stop ≤ hi) (hn : ∀ m ∈ n.preorder, m.Nests) : Nested hi (b.add n) := by
  obtain ⟨roots, opened⟩ := b
  cases opened with
  | nil => exact Laid.cons h hstart hspan hstop hn
  | cons o os => exact ⟨h.1, h.2.1, h.2.2.1.cons hstart hspan hstop hn, h.2.2.2⟩

theorem close (h : Nested lo b) (hstop : lo ≤ stop) : Nested stop (b.close stop) := by
  obtain ⟨roots, opened⟩ := b
  cases opened with
  | nil => exact h.mono hstop
  | cons o os =>
    obtain ⟨hspan, hlt, hlaid, houter⟩ := h
    have hinside := hlaid.mono hstop
    have hle := hinside.ascending.le
    have h : Nested o.head.startTag.start ⟨roots, os⟩ := houter
    refine h.add (n := .element { o.head with span := ⟨o.head.span.start, stop⟩ } o.children.reverse)
      (Nat.le_of_eq hspan.symm) ?_ (Nat.le_refl _) ?_
    · simp only [Node.span]
      omega
    · intro m hm
      rcases List.mem_cons.1 hm with rfl | hm
      · exact ⟨hspan, hinside.ascending⟩
      · obtain ⟨k, hk, hm⟩ := mem_preorderOf.1 hm
        exact hlaid.nests m (mem_preorderOf.2 ⟨k, List.mem_reverse.1 hk, hm⟩)

theorem closeMany (h : Nested hi b) (k : Nat) : Nested hi (Builder.closeMany hi k b) := by
  induction k generalizing b with
  | zero => exact h
  | succ k ih => exact ih (h.close (Nat.le_refl _))

theorem step (h : Nested lo b) (hfit : lo + size cs < UInt32.size) (hne : cs ≠ []) (ht : t.On lo cs) :
    Nested (lo + size cs) (b.step t) := by
  have hpos : lo < lo + size cs := by
    have := mt size_eq_zero.1 hne
    omega
  have hexact := Span.ofOffsets_of_lt hpos.le hfit
  cases t with
  | comment span =>
    obtain rfl : span = _ := Eq.trans ht hexact
    exact h.add (Nat.le_refl _) hpos (Nat.le_refl _) (by simp [Node.preorder, Node.Nests])
  | text piece =>
    obtain rfl : piece = _ := Eq.trans ht (Piece.located_of_lt hfit)
    exact h.add (Nat.le_refl _) hpos (Nat.le_refl _) (by simp [Node.preorder, Node.Nests])
  | endTag tag span =>
    obtain ⟨ht, -⟩ := ht
    obtain rfl : span = _ := ht.trans hexact
    rw [Builder.step, endTag]
    split
    · exact h.mono hpos.le
    · exact (h.closeMany _).close hpos.le
  | startTag head selfClosing =>
    obtain ⟨hstart, hspan, -⟩ := ht
    rw [hexact] at hstart
    rw [Builder.step]
    split
    · have hstart' : head.startTag.start = lo := by rw [hstart]
      have hstop : head.startTag.stop = lo + size cs := by rw [hstart]
      have hlt : head.startTag.start < head.startTag.stop := by omega
      exact ⟨by rw [hspan], hlt, laid_nil hstop.le, hstart'.symm ▸ h⟩
    · have hlo : head.span = ⟨lo, lo + size cs⟩ := hspan.trans hstart
      refine h.add (n := .element head []) ?_ ?_ ?_ ?_
      · simp [Node.span, hlo]
      · simp only [Node.span, hlo]
        exact hpos
      · simp [Node.span, hlo]
      · intro m hm
        rcases List.mem_cons.1 hm with rfl | hm
        · exact ⟨by rw [hspan], by rw [hspan]; exact Nat.le_refl _⟩
        · cases hm

theorem foldl (h : Nested lo b) (hfit : lo + size cs < UInt32.size) (hts : Cuts lo cs ts) :
    Nested (lo + size cs) (ts.foldl Builder.step b) := by
  induction hts generalizing b with
  | nil => exact h
  | cons hne ht _ ih =>
    rw [size_append, ← Nat.add_assoc] at hfit ⊢
    exact ih (h.step (by omega) hne ht) hfit

end Nested

end Builder

/-- The tree of a text lies in the text, and the content of every element in the element. -/
theorem laid_ofTokens (h : Cuts 0 cs ts) (hfit : size cs < UInt32.size) :
    Laid 0 (size cs) (ofTokens (size cs) ts).reverse := by
  have hstart : Builder.Nested 0 {} := laid_nil (Nat.le_refl 0)
  have hall := (hstart.foldl (by omega) h).closeMany (ts.foldl Builder.step {}).opened.length
  rw [Nat.zero_add, Builder.Nested, Builder.opened_closeMany_length] at hall
  rwa [ofTokens, Builder.finish, List.reverse_reverse, Nat.mod_eq_of_lt hfit]

end Relabel.Markup
