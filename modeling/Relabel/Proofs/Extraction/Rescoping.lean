import Relabel.Proofs.Extraction.Flow

/-!
# What rescoping changes

Rescoping to a depth is a change of qualifiers alone (`rescopeAll_eq`), so what it does to usages follows
from what it does to one qualifier. At every place, among the arguments of calls and in the list and the
content of loops too, a usage becomes one with the same bytes and the same expression, and only an unnamed
item of the loop at that depth becomes a base (`rescoped_of_rescopeAll`).
-/

namespace Relabel
variable {depth other : Nat} {q : Qualifier} {f g : Qualifier → Qualifier}

namespace Qualifier

/-- The item of the loop at a depth that gives it no name becomes a base with the name that it has; every
other qualifier stays. -/
inductive Rescoped (depth : Nat) : Qualifier → Qualifier → Prop
  | unnamed {bound : LoopVariable} (h : bound.isDefault = true) :
    Rescoped depth (.loop .item bound depth) (.item bound.name)
  | other {q : Qualifier} (h : ∀ bound, q = .loop .item bound depth → bound.isDefault = false) :
    Rescoped depth q q

theorem rescoped_rescope (depth : Nat) (q : Qualifier) : Rescoped depth q (q.rescope depth) := by
  match q with
  | .component _ => exact .other nofun
  | .item _ => exact .other nofun
  | .loop .index _ _ => exact .other nofun
  | .loop .item bound d =>
    rw [rescope]
    split
    · next h =>
      obtain ⟨hdefault, rfl⟩ := h
      exact .unnamed hdefault
    · next h =>
      refine .other fun bound' heq => ?_
      cases heq
      exact Bool.eq_false_iff.2 fun hdefault => h ⟨hdefault, rfl⟩

theorem rescope_rescope (depth : Nat) (q : Qualifier) :
    (q.rescope depth).rescope depth = q.rescope depth := by
  match q with
  | .component _ => rfl
  | .item _ => rfl
  | .loop .index _ _ => rfl
  | .loop .item bound d =>
    rw [rescope]
    split
    · rfl
    · next h => exact if_neg h

theorem rescope_comm (depth other : Nat) (q : Qualifier) :
    (q.rescope depth).rescope other = (q.rescope other).rescope depth := by
  match q with
  | .component _ => rfl
  | .item _ => rfl
  | .loop .index _ _ => rfl
  | .loop .item bound d =>
    rw [rescope, rescope]
    by_cases h : bound.isDefault ∧ d = depth
    · rw [if_pos h]
      -- whichever comes first makes it a base, and a base stays
      split
      · rfl
      · exact (if_pos h).symm
    · rw [if_neg h]
      split
      · next h' => exact if_pos h'
      · next h' => exact (if_neg h').trans (if_neg h).symm

end Qualifier

namespace Usage
variable {u v : Usage} {us vs : List Usage}

/-! ### Changes of qualifiers -/

mutual

/-- A usage with every qualifier in it changed. -/
def requalified (f : Qualifier → Qualifier) : Usage → Usage
  | path span name q role => .path span name (f q) role
  | call span name q args => .call span name (f q) (requalifiedAll f args)
  | loop span items frame d children =>
    .loop span (items.requalified f) frame d (requalifiedAll f children)
  | listener span method q => .listener span method (f q)
  | u => u

/-- Usages with every qualifier in them changed. -/
def requalifiedAll (f : Qualifier → Qualifier) : List Usage → List Usage
  | [] => []
  | u :: us => u.requalified f :: requalifiedAll f us

end

/-- Usages as far as they do not depend on qualifiers. -/
def unqualifiedAll (us : List Usage) : List Usage :=
  requalifiedAll (fun _ => .component false) us

mutual

theorem rescope_eq (depth : Nat) : ∀ u : Usage, u.rescope depth = u.requalified (·.rescope depth)
  | path .. => rfl
  | call span name q args => by rw [rescope, requalified, rescopeAll_eq depth args]
  | literal _ => rfl
  | loop span items frame d children => by
    rw [rescope, requalified, rescope_eq depth items, rescopeAll_eq depth children]
  | attributeName .. => rfl
  | listener .. => rfl
  | dataFlow .. => rfl
  | callback .. => rfl

theorem rescopeAll_eq (depth : Nat) : ∀ us : List Usage,
    rescopeAll depth us = requalifiedAll (·.rescope depth) us
  | [] => rfl
  | u :: us => by rw [rescopeAll, requalifiedAll, rescope_eq depth u, rescopeAll_eq depth us]

end

mutual

theorem requalified_requalified (f g : Qualifier → Qualifier) : ∀ u : Usage,
    (u.requalified f).requalified g = u.requalified fun q => g (f q)
  | path .. => rfl
  | call span name q args => by
    rw [requalified, requalified, requalified, requalifiedAll_requalifiedAll f g args]
  | literal _ => rfl
  | loop span items frame d children => by
    rw [requalified, requalified, requalified, requalified_requalified f g items,
      requalifiedAll_requalifiedAll f g children]
  | attributeName .. => rfl
  | listener .. => rfl
  | dataFlow .. => rfl
  | callback .. => rfl

theorem requalifiedAll_requalifiedAll (f g : Qualifier → Qualifier) : ∀ us : List Usage,
    requalifiedAll g (requalifiedAll f us) = requalifiedAll (fun q => g (f q)) us
  | [] => rfl
  | u :: us => by
    rw [requalifiedAll, requalifiedAll, requalifiedAll, requalified_requalified f g u,
      requalifiedAll_requalifiedAll f g us]

end

/-! ### Places -/

/-- The usages inside a usage: the arguments of a call, the list of a loop and then its content. -/
def parts : Usage → List Usage
  | call _ _ _ args => args
  | loop _ items _ _ children => items :: children
  | _ => []

/-- What stands inside a usage at a place: each number of the place says which part comes next. -/
def inner? : Usage → List Nat → Option Usage
  | u, [] => some u
  | u, i :: p => u.parts[i]?.bind (·.inner? p)

/-- What stands among some usages at a place. -/
def at? (us : List Usage) (i : Nat) (p : List Nat) : Option Usage :=
  us[i]?.bind (·.inner? p)

theorem parts_rescope (depth : Nat) (u : Usage) : (u.rescope depth).parts = rescopeAll depth u.parts := by
  cases u <;> rfl

theorem inner?_rescope (depth : Nat) (u : Usage) (p : List Nat) :
    (u.rescope depth).inner? p = (u.inner? p).map (rescope depth) := by
  induction p generalizing u with
  | nil => rfl
  | cons i p ih =>
    rw [inner?, inner?, parts_rescope, rescopeAll_eq_map, List.getElem?_map, Option.bind_map, Option.map_bind]
    exact congrArg _ (funext ih)

theorem at?_rescopeAll (depth : Nat) (us : List Usage) (i : Nat) (p : List Nat) :
    at? (rescopeAll depth us) i p = (at? us i p).map (rescope depth) := by
  rw [at?, at?, rescopeAll_eq_map, List.getElem?_map, Option.bind_map, Option.map_bind]
  exact congrArg _ (funext fun u => inner?_rescope depth u p)

/-! ### Rescoped usages -/

/-- A usage and the one that stands at its place after rescoping to a depth. -/
structure Rescoped (depth : Nat) (u v : Usage) : Prop where
  span : v.span? = u.span?
  phrase : v.phrase? = u.phrase?
  parts : v.parts.length = u.parts.length
  name : v.reference?.map Prod.fst = u.reference?.map Prod.fst
  qualifier : Option.Rel (Qualifier.Rescoped depth) (u.reference?.map Prod.snd) (v.reference?.map Prod.snd)

theorem rescoped_rescope (depth : Nat) (u : Usage) : Rescoped depth u (u.rescope depth) where
  span := by cases u <;> rfl
  phrase := phrase?_rescope depth u
  parts := by rw [parts_rescope, rescopeAll_eq_map, List.length_map]
  name := by cases u <;> rfl
  qualifier := by
    cases u with
    | path span name q role => exact .some (q.rescoped_rescope depth)
    | call span name q args => exact .some (q.rescoped_rescope depth)
    | listener span method q => exact .some (q.rescoped_rescope depth)
    | literal => exact .none
    | loop => exact .none
    | attributeName => exact .none
    | dataFlow => exact .none
    | callback => exact .none

/-- Rescoping changes unnamed items of the loop at a depth, wherever they stand, and nothing else; doing it
twice changes nothing more, and two depths do not interfere. -/
theorem rescoped_of_rescopeAll (depth : Nat) (us : List Usage) :
    (∀ i p, Option.Rel (Rescoped depth) (at? us i p) (at? (rescopeAll depth us) i p)) ∧
      unqualifiedAll (rescopeAll depth us) = unqualifiedAll us ∧
      rescopeAll depth (rescopeAll depth us) = rescopeAll depth us ∧
      ∀ other, rescopeAll other (rescopeAll depth us) = rescopeAll depth (rescopeAll other us) := by
  refine ⟨fun i p => ?_, ?_, ?_, fun other => ?_⟩
  · rw [at?_rescopeAll]
    cases at? us i p with
    | none => exact .none
    | some u => exact .some (rescoped_rescope depth u)
  · rw [unqualifiedAll, unqualifiedAll, rescopeAll_eq, requalifiedAll_requalifiedAll]
  · simp only [rescopeAll_eq, requalifiedAll_requalifiedAll, Qualifier.rescope_rescope]
  · simp only [rescopeAll_eq, requalifiedAll_requalifiedAll, Qualifier.rescope_comm depth other]

end Usage

end Relabel
