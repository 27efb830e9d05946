import Mathlib.Tactic
import Relabel.Script.Export

/-!
# Trees without spans

What a program says does not depend on where its parts stand: labels and the shape of a tree are
enough to tell whether a program is settled and which names it exports.
-/

namespace Relabel.Script.Tree

mutual

/-- A tree without its spans. -/
def bare : Tree → Tree
  | .node label _ children => .node label ⟨0, 0⟩ (bares children)

/-- Trees without their spans. -/
def bares : List Tree → List Tree
  | [] => []
  | t :: ts => t.bare :: bares ts

end

variable {t u : Tree}

theorem bares_eq_map (ts : List Tree) : bares ts = ts.map bare := by
  induction ts with
  | nil => rfl
  | cons t ts ih => rw [bares, ih, List.map_cons]

theorem label_bare (t : Tree) : t.bare.label = t.label := by
  cases t
  rfl

theorem partsOf_eq_flatMap (ts : List Tree) : partsOf ts = ts.flatMap parts := by
  induction ts with
  | nil => rfl
  | cons t ts ih => rw [partsOf, ih, List.flatMap_cons]

mutual

theorem parts_bare : ∀ t : Tree, t.bare.parts = t.parts.map bare
  | .node label span children => by
    rw [bare, parts, parts, List.map_cons, bare, partsOf_bares children]

theorem partsOf_bares : ∀ ts : List Tree, partsOf (bares ts) = (partsOf ts).map bare
  | [] => rfl
  | t :: ts => by
    rw [bares, partsOf, partsOf, List.map_append, parts_bare t, partsOf_bares ts]

end

mutual

theorem bare_bare : ∀ t : Tree, t.bare.bare = t.bare
  | .node label span children => by rw [bare, bare, bares_bares children]

theorem bares_bares : ∀ ts : List Tree, bares (bares ts) = bares ts
  | [] => rfl
  | t :: ts => by rw [bares, bares, bare_bare t, bares_bares ts]

end

/-! ### Settled trees -/

theorem isUnsettled_bare (t : Tree) : t.bare.isUnsettled = t.isUnsettled := by
  rw [isUnsettled, isUnsettled, label_bare]

theorem isSettled_bare (t : Tree) : t.bare.isSettled = t.isSettled := by
  rw [isSettled, isSettled, parts_bare, List.all_map]
  congr 1
  funext u
  exact congrArg not (isUnsettled_bare u)

theorem isSettled_node {label : Label} {span : Span} {children : List Tree} :
    (node label span children).isSettled =
      (!(node label span children).isUnsettled && children.all isSettled) := by
  rw [isSettled, parts, List.all_cons, partsOf_eq_flatMap, List.all_flatMap]
  rfl

theorem all_isSettled_bares (ts : List Tree) : (bares ts).all isSettled = ts.all isSettled := by
  rw [bares_eq_map, List.all_map]
  exact congrArg ts.all (funext isSettled_bare)

/-! ### Exports -/

/-- Whether a statement is an export. -/
def isExport (t : Tree) : Bool :=
  t.label == .statement "export" || t.label == .statement "export default"

theorem exportedNames_of_not_isExport (h : t.isExport = false) : t.exportedNames = [] := by
  rw [exportedNames.eq_def]
  split
  · simp [isExport, label] at h
  · simp [isExport, label] at h
  · rfl

mutual

theorem boundNames_bare : ∀ t : Tree, t.bare.boundNames = t.boundNames
  | .node label span children => by
    rw [bare, boundNames.eq_def, boundNames.eq_def]
    cases label <;>
      first
      | rfl
      | exact lastBoundNames_bares children
      | exact firstBoundNames_bares children
      | exact boundNamesOf_bares children

theorem boundNamesOf_bares : ∀ ts : List Tree, boundNamesOf (bares ts) = boundNamesOf ts
  | [] => rfl
  | t :: ts => by rw [bares, boundNamesOf, boundNamesOf, boundNames_bare t, boundNamesOf_bares ts]

theorem firstBoundNames_bares : ∀ ts : List Tree, firstBoundNames (bares ts) = firstBoundNames ts
  | [] => rfl
  | t :: _ => boundNames_bare t

theorem lastBoundNames_bares : ∀ ts : List Tree, lastBoundNames (bares ts) = lastBoundNames ts
  | [] => rfl
  | [t] => boundNames_bare t
  | _ :: t :: ts => lastBoundNames_bares (t :: ts)

end

theorem variableName?_bare (t : Tree) : t.bare.variableName? = t.variableName? := by
  obtain ⟨label, span, children⟩ := t
  cases label <;> rfl

theorem nameText?_bare (t : Tree) : t.bare.nameText? = t.nameText? := by
  obtain ⟨label, span, children⟩ := t
  cases label <;> rfl

theorem declaredNames_bare (t : Tree) : t.bare.declaredNames = t.declaredNames := by
  obtain ⟨label, span, children⟩ := t
  have hname : ∀ ts : List Tree, (bares ts).findSome? variableName? = ts.findSome? variableName? := by
    intro ts
    rw [bares_eq_map, List.findSome?_map]
    exact congrArg (ts.findSome? ·) (funext variableName?_bare)
  cases label with
  | declaration kind =>
    show (bares children).flatMap (fun d => firstBoundNames d.children) = _
    rw [bares_eq_map, List.flatMap_map]
    refine congrArg children.flatMap (funext fun d => ?_)
    obtain ⟨label, span, children⟩ := d
    exact firstBoundNames_bares children
  | function isAsync isGenerator => exact congrArg Option.toList (hname children)
  | classDefinition => exact congrArg Option.toList (hname children)
  | _ => rfl

theorem givenNames_bare (t : Tree) : t.bare.givenNames = t.givenNames := by
  obtain ⟨label, span, children⟩ := t
  have hdeclared := declaredNames_bare (.node label span children)
  cases label with
  | specifier =>
    show ((bares children).getLast?.bind nameText?).toList = _
    rw [bares_eq_map, List.getLast?_map]
    cases h : children.getLast? with
    | none => simp [givenNames, h]
    | some t => simp [givenNames, h, nameText?_bare]
  | _ => exact hdeclared

/-- What a statement exports does not depend on where it stands. -/
theorem exportedNames_bare (t : Tree) : t.bare.exportedNames = t.exportedNames := by
  obtain ⟨label, span, children⟩ := t
  cases label with
  | statement keyword =>
    by_cases hexport : keyword = "export"
    · subst hexport
      show (bares children).flatMap givenNames = children.flatMap givenNames
      rw [bares_eq_map, List.flatMap_map]
      exact congrArg children.flatMap (funext givenNames_bare)
    by_cases hdefault : keyword = "export default"
    · subst hdefault
      rfl
    · simp [bare, exportedNames, hexport, hdefault]
  | _ => rfl

theorem flatMap_exportedNames_bares (ts : List Tree) :
    (bares ts).flatMap exportedNames = ts.flatMap exportedNames := by
  rw [bares_eq_map, List.flatMap_map]
  exact congrArg ts.flatMap (funext exportedNames_bare)

theorem isExport_bare (t : Tree) : t.bare.isExport = t.isExport := by
  rw [isExport, isExport, label_bare]

theorem exportsOnce_of_not_isExport (h : ∀ u ∈ t.children, u.isExport = false) :
    t.exportsOnce = true := by
  rw [exportsOnce, List.flatMap_eq_nil_iff.2 fun u hu => exportedNames_of_not_isExport (h u hu)]
  rfl

end Relabel.Script.Tree
