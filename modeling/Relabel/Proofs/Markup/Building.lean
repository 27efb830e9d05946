import Relabel.Proofs.Markup.Accounts

/-!
# What the builder keeps

Whatever tokens come, an element that has been closed stays as it is, and the children of one that is open
only get more (`kept_has`, `kept_begins`). So both belong to the tree in the end.
-/

namespace Relabel.Markup
open Text
variable {start : Nat} {cs : List Char} {t : Token} {ts : List Token} {head : Head} {n m : Node}
  {ns children : List Node} {b : Builder}

namespace Builder

/-- What the builder does to a token keeps a property. -/
structure Kept (P : Builder → Prop) : Prop where
  add : ∀ b n, P b → P (b.add n)
  close : ∀ b stop, P b → P (b.close stop)
  push : ∀ b head, P b → P { b with opened := ⟨head, []⟩ :: b.opened }

namespace Kept
variable {P : Builder → Prop}

theorem closeMany (hP : Kept P) (h : P b) (stop k : Nat) : P (Builder.closeMany stop k b) := by
  induction k generalizing b with
  | zero => exact h
  | succ k ih => exact ih (hP.close b stop h)

theorem step (hP : Kept P) (h : P b) (t : Token) : P (b.step t) := by
  cases t with
  | comment span => exact hP.add b _ h
  | text piece => exact hP.add b _ h
  | endTag tag span =>
    rw [Builder.step, endTag]
    split
    · exact h
    · exact hP.close _ _ (hP.closeMany h _ _)
  | startTag head closing =>
    rw [Builder.step]
    split
    · exact hP.push b head h
    · exact hP.add b _ h

theorem foldl (hP : Kept P) (h : P b) (ts : List Token) : P (ts.foldl Builder.step b) := by
  induction ts generalizing b with
  | nil => exact h
  | cons t ts ih => exact ih (hP.step h t)

end Kept

/-- A node has been read and closed. -/
def Has (n : Node) (b : Builder) : Prop :=
  n ∈ preorderOf b.roots ∨ ∃ o ∈ b.opened, n ∈ preorderOf o.children

/-- An element has been opened, and its children begin with some nodes. -/
def Begins (head : Head) (ns : List Node) (b : Builder) : Prop :=
  (∃ o ∈ b.opened, o.head = head ∧ ns <+: o.children.reverse) ∨
    ∃ stop children, ns <+: children ∧ b.Has (.element { head with span := ⟨head.span.start, stop⟩ } children)

theorem has_add : (b.add m).Has n ↔ n ∈ m.preorder ∨ b.Has n := by
  obtain ⟨roots, opened⟩ := b
  cases opened with
  | nil => simp [add, Has, preorderOf]
  | cons o os => simp [add, Has, preorderOf]; tauto

theorem has_push (h : b.Has n) (head : Head) : Has n { b with opened := ⟨head, []⟩ :: b.opened } := by
  rcases h with h | ⟨o, ho, h⟩
  · exact .inl h
  · exact .inr ⟨o, List.mem_cons_of_mem _ ho, h⟩

theorem has_close (h : b.Has n) (stop : Nat) : (b.close stop).Has n := by
  obtain ⟨roots, opened⟩ := b
  cases opened with
  | nil => exact h
  | cons o os =>
    rw [close, has_add]
    rcases h with h | ⟨o', ho', h⟩
    · exact .inr (.inl h)
    · rcases List.mem_cons.1 ho' with rfl | ho'
      · obtain ⟨m, hm, h⟩ := mem_preorderOf.1 h
        exact .inl (List.mem_cons_of_mem _ (mem_preorderOf.2 ⟨m, List.mem_reverse.2 hm, h⟩))
      · exact .inr (.inr ⟨o', ho', h⟩)

theorem kept_has (n : Node) : Kept (Has n) :=
  ⟨fun _ _ h => has_add.2 (.inr h), fun _ stop h => has_close h stop, fun _ head h => has_push h head⟩

theorem begins_add (h : b.Begins head ns) (m : Node) : (b.add m).Begins head ns := by
  obtain ⟨roots, opened⟩ := b
  rcases h with ⟨o, ho, hhead, hbegin⟩ | ⟨stop, children, hbegin, h⟩
  · cases opened with
    | nil => cases ho
    | cons o' os =>
      rcases List.mem_cons.1 ho with rfl | ho
      · refine .inl ⟨_, List.mem_cons_self .., hhead, hbegin.trans ?_⟩
        exact ⟨[m], (List.reverse_cons ..).symm⟩
      · exact .inl ⟨o, List.mem_cons_of_mem _ ho, hhead, hbegin⟩
  · exact .inr ⟨stop, children, hbegin, has_add.2 (.inr h)⟩

theorem begins_close (h : b.Begins head ns) (stop : Nat) : (b.close stop).Begins head ns := by
  rcases h with ⟨o, ho, rfl, hbegin⟩ | ⟨stop', children, hbegin, h⟩
  · obtain ⟨roots, opened⟩ := b
    cases opened with
    | nil => cases ho
    | cons o' os =>
      rcases List.mem_cons.1 ho with rfl | ho
      · exact .inr ⟨stop, _, hbegin, has_add.2 (.inl (Node.mem_preorder_self _))⟩
      · exact begins_add (.inl ⟨o, ho, rfl, hbegin⟩) _
  · exact .inr ⟨stop', children, hbegin, has_close h stop⟩

theorem begins_push (h : b.Begins head ns) (head' : Head) :
    Begins head ns { b with opened := ⟨head', []⟩ :: b.opened } := by
  rcases h with ⟨o, ho, hhead, hbegin⟩ | ⟨stop, children, hbegin, h⟩
  · exact .inl ⟨o, List.mem_cons_of_mem _ ho, hhead, hbegin⟩
  · exact .inr ⟨stop, children, hbegin, has_push h head'⟩

theorem kept_begins (head : Head) (ns : List Node) : Kept (Begins head ns) :=
  ⟨fun _ m h => begins_add h m, fun _ stop h => begins_close h stop, fun _ head' h => begins_push h head'⟩

/-- What has been read belongs to the tree. -/
theorem mem_finish_of_has (h : b.Has n) (stop : Nat) : n ∈ preorderOf (b.finish stop) := by
  have hall := (kept_has n).closeMany h stop b.opened.length
  rw [Has, opened_closeMany_length] at hall
  obtain ⟨m, hm, hn⟩ := mem_preorderOf.1 (hall.resolve_right fun ⟨_, ho, _⟩ => nomatch ho)
  exact mem_preorderOf.2 ⟨m, List.mem_reverse.2 hm, hn⟩

theorem finish_close (b : Builder) (stop : Nat) : (b.close stop).finish stop = b.finish stop := by
  rw [finish, finish, length_opened_close]
  cases hopened : b.opened with
  | nil => rw [close, hopened]; rfl
  | cons o os => rfl

/-- The children of an element of the tree begin as they began when the element was open. -/
theorem exists_of_begins (h : b.Begins head ns) (stop : Nat) :
    ∃ stop' children, ns <+: children ∧
      .element { head with span := ⟨head.span.start, stop'⟩ } children ∈ preorderOf (b.finish stop) := by
  rcases (kept_begins head ns).closeMany h stop b.opened.length with ⟨o, ho, -⟩ | ⟨stop', children, hbegin, h⟩
  · rw [opened_closeMany_length] at ho
    cases ho
  · refine ⟨stop', children, hbegin, ?_⟩
    have hmem := mem_finish_of_has h stop
    rw [finish, opened_closeMany_length] at hmem
    exact hmem

end Builder

/-! ### Positions of tokens -/

/-- The bytes of a token. -/
def Token.span : Token → Span
  | .comment span => span
  | .text piece => piece.span
  | .endTag _ span => span
  | .startTag head _ => head.startTag

theorem Token.On.span_eq (h : t.On start cs) : t.span = .ofOffsets start (start + size cs) := by
  cases t with
  | comment span => exact h
  | text piece =>
    obtain rfl : piece = _ := h
    rfl
  | endTag tag span => exact h.1
  | startTag head closing => exact h.1

theorem Cuts.spans (h : Cuts start cs ts) (hfit : start + size cs < UInt32.size) :
    Span.Ascending start (start + size cs) (ts.map Token.span) := by
  induction h with
  | nil n => exact Nat.le_refl n
  | @cons n cs rest t ts hne ht _ ih =>
    have hpos : 0 < size cs := Nat.pos_of_ne_zero (mt size_eq_zero.1 hne)
    rw [size_append, ← Nat.add_assoc] at hfit ⊢
    rw [List.map_cons, ht.span_eq, Span.ofOffsets_of_lt (Nat.le_add_right ..) (by omega)]
    exact ⟨Nat.le_refl n, Nat.lt_add_of_pos_right hpos, ih hfit⟩

/-- Two tokens of a text are one, or one of them ends before the other begins. -/
theorem Cuts.apart {t' : Token} (h : Cuts start cs ts) (hfit : start + size cs < UInt32.size) (ht : t ∈ ts)
    (ht' : t' ∈ ts) : t = t' ∨ t.span.stop ≤ t'.span.start ∨ t'.span.stop ≤ t.span.start := by
  have hpairs := List.pairwise_map.1 (h.spans hfit).pairwise
  let R (t t' : Token) : Prop := t = t' ∨ t.span.stop ≤ t'.span.start ∨ t'.span.stop ≤ t.span.start
  exact List.Pairwise.forall_of_forall_of_flip (R := R) (fun t _ => .inl rfl)
    (hpairs.imp fun h => .inr (.inl h)) (hpairs.imp fun h => .inr (.inr h)) ht ht'

/-- A start tag stands for one element of the tree. -/
theorem Accounts.eq_of_startTag {children' : List Node} {head' : Head} (h : Accounts cs ns)
    (he : .element head children ∈ preorderOf ns) (he' : .element head' children' ∈ preorderOf ns)
    (hstart : head.startTag = head'.startTag) : head = head' ∧ children = children' := by
  have hmarks : ((preorderOf ns).map Node.mark).Nodup := h.marks.nodup
  exact Node.element.inj (List.inj_on_of_nodup_map hmarks he he' hstart)

end Relabel.Markup
