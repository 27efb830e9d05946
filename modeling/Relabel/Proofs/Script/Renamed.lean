import Relabel.Proofs.Script.Bare

/-!
# Renaming trees

`Tree.renamed s v` gives properties new names by `s` and variables by `v`; nothing else of a tree
changes, so its parts are the parts of the tree, renamed.
-/

namespace Relabel.Script
variable {s v : String → String}

/-- A label whose name is another by `s`, if it is that of a property, or by `v`, if it is that of a
variable. -/
def Label.renamed (s v : String → String) : Label → Label
  | .identifier n => .identifier (v n)
  | .member n isOptional => .member (s n) isOptional
  | l => l

namespace Tree

mutual

/-- A tree with other names. -/
def renamed (s v : String → String) : Tree → Tree
  | .node label span children => .node (label.renamed s v) span (renamedAll s v children)

/-- Trees with other names. -/
def renamedAll (s v : String → String) : List Tree → List Tree
  | [] => []
  | t :: ts => t.renamed s v :: renamedAll s v ts

end

theorem renamedAll_eq_map (ts : List Tree) : renamedAll s v ts = ts.map (renamed s v) := by
  induction ts with
  | nil => rfl
  | cons t ts ih => rw [renamedAll, ih, List.map_cons]

theorem label_renamed (t : Tree) : (t.renamed s v).label = t.label.renamed s v := by
  cases t
  rfl

theorem children_renamed (t : Tree) : (t.renamed s v).children = t.children.map (renamed s v) := by
  obtain ⟨label, span, children⟩ := t
  rw [renamed, renamedAll_eq_map]
  rfl

theorem children_bare (t : Tree) : t.bare.children = t.children.map bare := by
  obtain ⟨label, span, children⟩ := t
  rw [bare, bares_eq_map]
  rfl

mutual

theorem parts_renamed : ∀ t : Tree, (t.renamed s v).parts = t.parts.map (renamed s v)
  | .node label span children => by
    rw [renamed, parts, parts, List.map_cons, renamed, partsOf_renamedAll children]

theorem partsOf_renamedAll : ∀ ts : List Tree,
    partsOf (renamedAll s v ts) = (partsOf ts).map (renamed s v)
  | [] => rfl
  | t :: ts => by
    rw [renamedAll, partsOf, partsOf, List.map_append, parts_renamed t, partsOf_renamedAll ts]

end

mutual

theorem bare_renamed : ∀ t : Tree, (t.renamed s v).bare = t.bare.renamed s v
  | .node label span children => by
    rw [renamed, bare, bare, renamed, bares_renamedAll children]

theorem bares_renamedAll : ∀ ts : List Tree, bares (renamedAll s v ts) = renamedAll s v (bares ts)
  | [] => rfl
  | t :: ts => by
    rw [renamedAll, bares, bares, renamedAll, bare_renamed t, bares_renamedAll ts]

end

mutual

theorem renamed_id : ∀ t : Tree, t.renamed id id = t
  | .node label span children => by
    rw [renamed, renamedAll_id children]
    cases label <;> rfl

theorem renamedAll_id : ∀ ts : List Tree, renamedAll id id ts = ts
  | [] => rfl
  | t :: ts => by rw [renamedAll, renamed_id t, renamedAll_id ts]

end

end Tree

end Relabel.Script
