import Mathlib.Tactic
import Relabel.Extraction

/-!
# What a name refers to

`Resolves fs name q`: under loops with the frames `fs`, outermost first, the first part of `name`
stands for the variable of the innermost loop that knows it, and for a property of the component if
none does. The walk gets there in two steps. It looks the name up under the open loops (`Looked`), and
each loop that is closed turns its unnamed item into a base: while the loops up to the depth `k` are
open, that has been done for the loops deeper than `k` (`Qualifier.settle`, `Settled`).
-/

namespace Relabel
open Text
variable {fs frames inner outer : List Frame} {f g : Frame} {name : String} {q : Qualifier} {k d : Nat}
  {role : LoopRole} {bound : LoopVariable} {scope : Scope} {site : Site}

/-- The variable of a loop in a role. -/
def Frame.variable (f : Frame) : LoopRole → LoopVariable
  | .item => f.item
  | .index => f.index

/-- One of the variables of a loop has a name. -/
def Frame.Knows (f : Frame) (name : String) : Prop :=
  f.item.name = name ∨ f.index.name = name

/-- The variable that a loop at a depth has for a name that it knows. An item without a name of its own
is only a base for the rest of the path. -/
def Frame.qualifier (f : Frame) (name : String) (depth : Nat) : Qualifier :=
  if f.item.name = name then
    if f.item.isDefault then .item f.item.name else .loop .item f.item depth
  else .loop .index f.index depth

/-- What the first part of a name refers to under some loops, outermost first. -/
structure Resolves (fs : List Frame) (name : String) (q : Qualifier) : Prop where
  component : (∀ f ∈ fs, ¬ f.Knows (leadingSegment name)) → ∃ renameable, q = .component renameable
  innermost : ∀ outer f inner, fs = outer ++ f :: inner → f.Knows (leadingSegment name) →
    (∀ g ∈ inner, ¬ g.Knows (leadingSegment name)) →
    q = f.qualifier (leadingSegment name) (outer.length + 1)

/-! ### Lookup -/

/-- What the first part of a name is looked up as under some loops, outermost first. -/
def Looked (fs : List Frame) (name : String) (q : Qualifier) : Prop :=
  match Scope.innermost? (leadingSegment name) fs.reverse with
  | some (role, bound, depth) => q = .loop role bound depth
  | none => ∃ renameable, q = .component renameable

theorem Frame.bound?_eq_none_iff : f.bound? name = none ↔ ¬ f.Knows name := by
  unfold Frame.bound? Frame.Knows
  split
  · next h => simp [h]
  · next h => split <;> simp_all

theorem Frame.eq_variable_of_bound? (h : f.bound? name = some (role, bound)) :
    bound = f.variable role := by
  unfold Frame.bound? at h
  split at h
  · cases h
    rfl
  · split at h
    · cases h
      rfl
    · cases h

theorem Scope.innermost?_eq_none (h : ∀ f ∈ frames, ¬ f.Knows name) : innermost? name frames = none := by
  induction frames with
  | nil => rfl
  | cons f frames ih =>
    rw [innermost?, Frame.bound?_eq_none_iff.2 (h f (List.mem_cons_self ..))]
    exact ih fun g hg => h g (List.mem_cons_of_mem _ hg)

theorem Scope.innermost?_append (hinner : ∀ g ∈ inner, ¬ g.Knows name)
    (hf : f.bound? name = some (role, bound)) :
    innermost? name (inner ++ f :: outer) = some (role, bound, outer.length + 1) := by
  induction inner with
  | nil => rw [List.nil_append, innermost?, hf]
  | cons g inner ih =>
    rw [List.cons_append, innermost?, Frame.bound?_eq_none_iff.2 (hinner g (List.mem_cons_self ..))]
    exact ih fun g' hg => hinner g' (List.mem_cons_of_mem _ hg)

/-- The loop that is found, with the loops inside and outside of it. -/
theorem Scope.exists_of_innermost? (h : innermost? name frames = some (role, bound, d)) :
    ∃ inner f outer, frames = inner ++ f :: outer ∧ f.bound? name = some (role, bound) ∧
      d = outer.length + 1 := by
  induction frames with
  | nil => cases h
  | cons f frames ih =>
    rw [innermost?] at h
    split at h
    · next hf =>
      cases h
      exact ⟨[], f, frames, rfl, hf, rfl⟩
    · obtain ⟨inner, g, outer, rfl, hg, rfl⟩ := ih h
      exact ⟨f :: inner, g, outer, rfl, hg, rfl⟩

theorem looked_lookup {r : Resolution} (h : scope.lookup name = some r) :
    Looked scope.frames.reverse name (.ofResolution r) := by
  unfold Looked
  rw [List.reverse_reverse]
  simp only [Scope.lookup] at h
  cases hfound : Scope.innermost? (leadingSegment name) scope.frames with
  | some found =>
    rw [hfound] at h
    cases h
    rfl
  | none =>
    simp only [hfound, Option.bind_eq_bind, Option.bind_eq_some_iff, Option.pure_def,
      Option.some.injEq] at h
    obtain ⟨schema, -, property, -, rfl⟩ := h
    exact ⟨_, rfl⟩

/-- A name that no loop knows may be taken for any part of the component. -/
theorem looked_component (h : scope.lookup name = none ∨
    ∃ n renameable owner, scope.lookup name = some (.component n renameable owner)) (renameable : Bool) :
    Looked scope.frames.reverse name (.component renameable) := by
  unfold Looked
  rw [List.reverse_reverse]
  split
  · next hfound =>
    simp [Scope.lookup, hfound] at h
  · exact ⟨_, rfl⟩

namespace Site

theorem looked_pathUsage (site : Site) (scope : Scope) (p : Piece) (role : PathRole) :
    ∃ q, Looked scope.frames.reverse p.text q ∧
      (site.pathUsage scope p role).1 = .path p.span p.text q role := by
  unfold pathUsage
  split
  · next r hr => exact ⟨_, looked_lookup hr, rfl⟩
  · next hnone =>
    split
    · exact ⟨_, looked_component (.inl hnone) _, rfl⟩
    · exact ⟨_, looked_component (.inl hnone) _, rfl⟩

theorem looked_methodQualifier? (scope : Scope) (name : String) :
    (∃ q, methodQualifier? scope name = some q ∧ Looked scope.frames.reverse name q) ∨
      methodQualifier? scope name = none ∧ Looked scope.frames.reverse name (.component true) := by
  unfold methodQualifier?
  split
  · next hloop => exact .inl ⟨_, rfl, looked_lookup hloop⟩
  · next hother =>
    have hlookup : scope.lookup name = none ∨
        ∃ n renameable owner, scope.lookup name = some (.component n renameable owner) := by
      cases hr : scope.lookup name with
      | none => exact .inl rfl
      | some r =>
        cases r with
        | component n renameable owner => exact .inr ⟨n, renameable, owner, rfl⟩
        | loop n role bound depth => exact absurd hr (hother n role bound depth)
    cases scope.methodRenameable? name with
    | none => exact .inr ⟨rfl, looked_component hlookup _⟩
    | some renameable => exact .inl ⟨_, rfl, looked_component hlookup _⟩

end Site

/-! ### Unnamed items -/

/-- A qualifier after the loops deeper than `k` were closed. -/
def Qualifier.settle (k : Nat) : Qualifier → Qualifier
  | .loop .item bound depth =>
    if bound.isDefault ∧ k < depth then .item bound.name else .loop .item bound depth
  | q => q

/-- The qualifier of a name that was looked up under some loops, after those deeper than `k` were
closed. -/
def Settled (k : Nat) (fs : List Frame) (name : String) (q : Qualifier) : Prop :=
  ∃ q', Looked fs name q' ∧ q = q'.settle k

theorem Qualifier.rescope_settle (k : Nat) (q : Qualifier) :
    (q.settle (k + 1)).rescope (k + 1) = q.settle k := by
  match q with
  | .component _ => rfl
  | .item _ => rfl
  | .loop .index _ _ => rfl
  | .loop .item bound depth =>
    by_cases h : bound.isDefault = true ∧ k + 1 < depth
    · rw [settle, settle, if_pos h, if_pos ⟨h.1, Nat.lt_of_succ_lt h.2⟩]
      rfl
    · rw [settle, settle, if_neg h, rescope]
      refine if_congr (and_congr_right fun hdefault => ⟨fun heq => ?_, fun hlt => ?_⟩) rfl rfl
      · exact heq ▸ Nat.lt_succ_self k
      · exact Nat.le_antisymm (Nat.le_of_not_lt fun hlt' => h ⟨hdefault, hlt'⟩) hlt

/-- Closing a loop. -/
theorem Settled.rescope (h : Settled (k + 1) fs name q) : Settled k fs name (q.rescope (k + 1)) := by
  obtain ⟨q', hq', rfl⟩ := h
  exact ⟨q', hq', q'.rescope_settle k⟩

/-- The loop whose variable a name was looked up as. -/
theorem Looked.exists_loop (h : Looked fs name (.loop role bound d)) :
    ∃ outer f inner, fs = outer ++ f :: inner ∧ bound = f.variable role ∧ d = outer.length + 1 := by
  unfold Looked at h
  split at h
  · next hfound =>
    cases h
    obtain ⟨inner, f, outer, hfs, hf, rfl⟩ := Scope.exists_of_innermost? hfound
    refine ⟨outer.reverse, f, inner.reverse, ?_, Frame.eq_variable_of_bound? hf, by simp⟩
    simpa using congrArg List.reverse hfs
  · obtain ⟨renameable, h⟩ := h
    cases h

/-- Closing a loop that names its item. -/
theorem Settled.close (h : Settled (outer.length + 1) (outer ++ f :: inner) name q)
    (hf : f.item.isDefault = false) : Settled outer.length (outer ++ f :: inner) name q := by
  obtain ⟨q', hq', rfl⟩ := h
  refine ⟨q', hq', ?_⟩
  match q', hq' with
  | .component _, _ => rfl
  | .item _, _ => rfl
  | .loop .index _ _, _ => rfl
  | .loop .item bound depth, hq' =>
    obtain ⟨outer', f', inner', hfs, rfl, rfl⟩ := hq'.exists_loop
    unfold Qualifier.settle
    refine if_congr (and_congr_right fun hdefault => ⟨Nat.lt_of_succ_lt, fun hlt => ?_⟩) rfl rfl
    refine Nat.lt_of_le_of_ne hlt fun heq => ?_
    -- a loop at the depth of `f` is `f`
    obtain ⟨-, hcons⟩ := List.append_inj hfs (by omega)
    obtain rfl := (List.cons.inj hcons).1
    exact Bool.false_ne_true (hf.symm.trans hdefault)

/-- No loop is deeper than those that are open. -/
theorem Looked.settled (h : Looked fs name q) : Settled fs.length fs name q := by
  refine ⟨q, h, ?_⟩
  match q, h with
  | .component _, _ => rfl
  | .item _, _ => rfl
  | .loop .index _ _, _ => rfl
  | .loop .item bound depth, h =>
    obtain ⟨outer, f, inner, rfl, -, rfl⟩ := h.exists_loop
    refine (if_neg fun h' => ?_).symm
    have hlt := h'.2
    simp only [List.length_append, List.length_cons] at hlt
    omega

/-- After all loops were closed, every name is what it refers to. -/
theorem Settled.resolves (h : Settled 0 fs name q) : Resolves fs name q := by
  obtain ⟨q', hq', rfl⟩ := h
  unfold Looked at hq'
  refine ⟨fun hnone => ?_, fun outer f inner hfs hf hinner => ?_⟩
  · rw [Scope.innermost?_eq_none fun f hf => hnone f (List.mem_reverse.1 hf)] at hq'
    obtain ⟨renameable, rfl⟩ := hq'
    exact ⟨renameable, rfl⟩
  · have hreverse : fs.reverse = inner.reverse ++ f :: outer.reverse := by simp [hfs]
    have hlooked {role : LoopRole} {bound : LoopVariable}
        (hbound : f.bound? (leadingSegment name) = some (role, bound)) :
        q' = .loop role bound (outer.length + 1) := by
      rw [hreverse, Scope.innermost?_append (fun g hg => hinner g (List.mem_reverse.1 hg)) hbound,
        List.length_reverse] at hq'
      exact hq'
    unfold Frame.qualifier
    split
    · next hitem =>
      rw [hlooked (if_pos hitem)]
      simp [Qualifier.settle]
    · next hitem =>
      have hindex : f.index.name = leadingSegment name := hf.resolve_left hitem
      rw [hlooked ((if_neg hitem).trans (if_pos hindex))]
      rfl

end Relabel
