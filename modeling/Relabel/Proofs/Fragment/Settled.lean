import Relabel.Proofs.Fragment.Syntax

/-!
# Emitted programs are settled

No part of an emitted program is an expression that only a pattern or the head of an arrow function
may be, and an emitted program exports nothing.
-/

namespace Relabel.Fragment
open Script
variable {a : Item}

theorem isSettled_memberTree {t : Tree} (h : t.isSettled = true) (ns : List String) :
    (memberTree t ns).isSettled = true := by
  induction ns generalizing t with
  | nil => exact h
  | cons n ns ih =>
    refine ih ?_
    rw [branch, Tree.isSettled_node, List.all_cons, h]
    rfl

theorem isSettled_plainLiteral {cs : List Char} (h : plainLiteral? cs = some a) :
    a.tree.isSettled = true := by
  rw [plainLiteral?] at h
  split at h
  · injection h with h
    subst h
    rfl
  · injection h with h
    subst h
    rfl
  · cases h

theorem isSettled_literal (t : String) : ((literal? t).getD ⟨[], branch .empty []⟩).tree.isSettled = true := by
  have hsigned : ∀ {cs : List Char} {sign : String}, ∀ a, (plainLiteral? cs).map (signedItem sign) = some a →
      a.tree.isSettled = true := by
    intro cs sign a ha
    obtain ⟨b, hb, rfl⟩ := Option.map_eq_some_iff.1 ha
    rw [signedItem, branch, Tree.isSettled_node, List.all_cons, isSettled_plainLiteral hb]
    rfl
  cases h : literal? t with
  | none => rfl
  | some a =>
    rw [Option.getD_some]
    rw [literal?] at h
    split at h
    · exact hsigned a h
    · exact hsigned a h
    · exact isSettled_plainLiteral h

mutual

theorem Phrase.isSettled_item : ∀ p : Phrase, p.item.tree.isSettled = true
  | .name path => by
    rw [Phrase.item]
    cases segments path with
    | nil => rfl
    | cons n ns => exact isSettled_memberTree rfl ns
  | .this path => isSettled_memberTree rfl _
  | .literal t => isSettled_literal t
  | .quoted t => rfl
  | .number n => rfl
  | .member object property => isSettled_memberTree object.isSettled_item _
  | .element object index => by
    rw [Phrase.item, branch, Tree.isSettled_node, List.all_cons, List.all_cons, object.isSettled_item,
      index.isSettled_item]
    rfl
  | .call callee args => by
    rw [Phrase.item, branch, Tree.isSettled_node, List.all_cons, callee.isSettled_item,
      all_isSettled_itemsOf args]
    rfl
  | .create constructor args => by
    rw [Phrase.item, branch, Tree.isSettled_node, List.all_cons, all_isSettled_itemsOf args]
    rfl
  | .typed type value => by
    rw [Phrase.item, branch, Tree.isSettled_node, List.all_cons, value.isSettled_item]
    rfl

theorem all_isSettled_itemsOf : ∀ ps : List Phrase,
    ((itemsOf ps).map Item.tree).all Tree.isSettled = true
  | [] => rfl
  | p :: ps => by
    rw [itemsOf, List.map_cons, List.all_cons, p.isSettled_item, all_isSettled_itemsOf ps]
    rfl

end

mutual

theorem Statement.isSettled_of_mem_items : ∀ s : Statement, ∀ a ∈ s.items, a.tree.isSettled = true
  | .run p => by
    simp [Statement.items, expressionItem, branch, Tree.isSettled_node, p.isSettled_item,
      Tree.isUnsettled, Tree.label]
  | .record p => by
    simp [Statement.items, expressionItem, branch, Tree.isSettled_node, p.isSettled_item,
      Tree.isUnsettled, Tree.label]
  | .declare name value => by
    simp [Statement.items, declareItem, declaratorTree, branch, Tree.isSettled_node,
      value.isSettled_item, Tree.isUnsettled, Tree.label]
  | .assign target value => by
    simp [Statement.items, assignItem, branch, Tree.isSettled_node, target.isSettled_item,
      value.isSettled_item, Tree.isUnsettled, Tree.label]
  | .note text => fun a ha => nomatch ha
  | .block body => by
    have hbody := isSettled_of_mem_itemsOfAll body
    simpa [Statement.items, blockItem, branch, Tree.isSettled_node, Tree.isUnsettled, Tree.label]
  | .declareFunction name body => by
    have hbody := isSettled_of_mem_itemsOfAll body
    simpa [Statement.items, declareItem, declaratorTree, functionItem, branch, Tree.isSettled_node,
      Tree.isUnsettled, Tree.label]
  | .assignFunction target body => by
    have hbody := isSettled_of_mem_itemsOfAll body
    simpa [Statement.items, assignItem, functionItem, branch, Tree.isSettled_node,
      target.isSettled_item, Tree.isUnsettled, Tree.label]
  | .forEach index item items body => by
    have hbody := isSettled_of_mem_itemsOfAll body
    have helement := (Phrase.element items (.name index)).isSettled_item
    simpa [Statement.items, loopItem, numberItem, blockItem, declareItem, declaratorTree, branch,
      Tree.isSettled_node, items.isSettled_item, helement, Tree.isUnsettled, Tree.label]

theorem isSettled_of_mem_itemsOfAll : ∀ ss : List Statement, ∀ a ∈ itemsOfAll ss, a.tree.isSettled = true
  | [], a, ha => nomatch ha
  | s :: ss, a, ha => by
    rcases List.mem_append.1 ha with ha | ha
    · exact s.isSettled_of_mem_items a ha
    · exact isSettled_of_mem_itemsOfAll ss a ha

end

/-! ### Exports -/

theorem Statement.not_isExport {s : Statement} (h : a ∈ s.items) : a.tree.isExport = false := by
  cases s with
  | note text => cases h
  | _ =>
    rw [List.mem_singleton.1 h]
    rfl

theorem not_isExport_itemsOfAll : ∀ (ss : List Statement), ∀ a ∈ itemsOfAll ss, a.tree.isExport = false
  | [], a, ha => by cases ha
  | s :: ss, a, ha => by
    rcases List.mem_append.1 ha with ha | ha
    · exact Statement.not_isExport ha
    · exact not_isExport_itemsOfAll ss a ha

end Relabel.Fragment
