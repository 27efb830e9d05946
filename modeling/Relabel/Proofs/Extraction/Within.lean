import Relabel.Usage

/-!
# Usages inside usages

`Within us fs u`: the usage `u` stands among `us` at some depth, under loops with the frames `fs`.
`Usage.Holds P fs u` says of all that stands inside a usage that `P` holds under the loops around it;
for a call and for a loop it follows from the parts.
-/

namespace Relabel

/-- A usage stands among some usages, at any depth, under loops with some frames, outermost first. The
list of a loop stands under the loops around it only. -/
inductive Within : List Usage → List Frame → Usage → Prop where
  | here {us : List Usage} {u : Usage} (h : u ∈ us) : Within us [] u
  | argument {us : List Usage} {span : Span} {name : String} {q : Qualifier} {args : List Usage}
      {fs : List Frame} {u : Usage} (h : .call span name q args ∈ us) (hu : Within args fs u) :
      Within us fs u
  | items {us : List Usage} {span : Span} {list : Usage} {frame : Frame} {depth : Nat}
      {children : List Usage} {fs : List Frame} {u : Usage}
      (h : .loop span list frame depth children ∈ us) (hu : Within [list] fs u) : Within us fs u
  | inside {us : List Usage} {span : Span} {list : Usage} {frame : Frame} {depth : Nat}
      {children : List Usage} {fs : List Frame} {u : Usage}
      (h : .loop span list frame depth children ∈ us) (hu : Within children fs u) :
      Within us (frame :: fs) u

namespace Usage
variable {P : List Frame → Usage → Prop} {fs gs : List Frame} {u v : Usage} {us : List Usage}

/-- A property holds of a usage under loops with the frames `fs` and of all that stands inside it. -/
def Holds (P : List Frame → Usage → Prop) (fs : List Frame) (u : Usage) : Prop :=
  ∀ gs v, Within [u] gs v → P (fs ++ gs) v

theorem Holds.self (h : Holds P fs u) : P fs u := by
  simpa using h [] u (.here (List.mem_singleton_self u))

theorem within_iff : Within us gs v ↔ ∃ u ∈ us, Within [u] gs v := by
  constructor
  · intro h
    cases h with
    | here h => exact ⟨v, h, .here (List.mem_singleton_self v)⟩
    | argument h hv => exact ⟨_, h, .argument (List.mem_singleton_self _) hv⟩
    | items h hv => exact ⟨_, h, .items (List.mem_singleton_self _) hv⟩
    | inside h hv => exact ⟨_, h, .inside (List.mem_singleton_self _) hv⟩
  · rintro ⟨u, hu, h⟩
    cases h with
    | here h => exact .here (List.mem_singleton.1 h ▸ hu)
    | argument h hv => exact .argument (List.mem_singleton.1 h ▸ hu) hv
    | items h hv => exact .items (List.mem_singleton.1 h ▸ hu) hv
    | inside h hv => exact .inside (List.mem_singleton.1 h ▸ hu) hv

theorem holds_of_within (h : ∀ u ∈ us, Holds P fs u) (hv : Within us gs v) : P (fs ++ gs) v := by
  obtain ⟨u, hu, hv⟩ := within_iff.1 hv
  exact h u hu gs v hv

/-- Calls and loops are the only usages with usages inside. -/
def IsLeaf : Usage → Prop
  | call .. => False
  | loop .. => False
  | _ => True

theorem holds_leaf (hu : IsLeaf u) (h : P fs u) : Holds P fs u := by
  intro gs v hv
  cases hv with
  | here hv =>
    obtain rfl := List.mem_singleton.1 hv
    rwa [List.append_nil]
  | argument hv =>
    obtain rfl := List.mem_singleton.1 hv
    exact hu.elim
  | items hv =>
    obtain rfl := List.mem_singleton.1 hv
    exact hu.elim
  | inside hv =>
    obtain rfl := List.mem_singleton.1 hv
    exact hu.elim

theorem holds_call {span : Span} {name : String} {q : Qualifier} {args : List Usage}
    (h : P fs (.call span name q args)) (hargs : ∀ a ∈ args, Holds P fs a) :
    Holds P fs (.call span name q args) := by
  intro gs v hv
  cases hv with
  | here hv =>
    obtain rfl := List.mem_singleton.1 hv
    rwa [List.append_nil]
  | argument hc hv =>
    obtain ⟨-, -, -, rfl⟩ := Usage.call.inj (List.mem_singleton.1 hc)
    exact holds_of_within hargs hv
  | items hc => cases List.mem_singleton.1 hc
  | inside hc => cases List.mem_singleton.1 hc

theorem holds_loop {span : Span} {items : Usage} {frame : Frame} {depth : Nat}
    {children : List Usage} (h : P fs (.loop span items frame depth children))
    (hitems : Holds P fs items) (hchildren : ∀ c ∈ children, Holds P (fs ++ [frame]) c) :
    Holds P fs (.loop span items frame depth children) := by
  intro gs v hv
  cases hv with
  | here hv =>
    obtain rfl := List.mem_singleton.1 hv
    rwa [List.append_nil]
  | argument hc => cases List.mem_singleton.1 hc
  | items hl hv =>
    obtain ⟨-, rfl, -, -, -⟩ := Usage.loop.inj (List.mem_singleton.1 hl)
    exact hitems _ v hv
  | inside hl hv =>
    obtain ⟨-, -, rfl, -, rfl⟩ := Usage.loop.inj (List.mem_singleton.1 hl)
    have := holds_of_within hchildren hv
    rwa [List.append_assoc] at this

/-! ### Rescoped usages -/

theorem rescopeAll_eq_map (depth : Nat) (us : List Usage) :
    rescopeAll depth us = us.map (rescope depth) := by
  induction us with
  | nil => rfl
  | cons u us ih => rw [rescopeAll, List.map_cons, ih]

/-- What stands inside rescoped usages is a rescoped usage that stands inside them. -/
theorem exists_of_within_rescopeAll {depth : Nat} (h : Within (rescopeAll depth us) gs v) :
    ∃ w, Within us gs w ∧ v = w.rescope depth := by
  generalize hus : rescopeAll depth us = vs at h
  induction h generalizing us with
  | here h =>
    subst hus
    obtain ⟨w, hw, rfl⟩ := List.mem_map.1 (rescopeAll_eq_map depth us ▸ h)
    exact ⟨w, .here hw, rfl⟩
  | argument h _ ih =>
    subst hus
    obtain ⟨w, hw, hcall⟩ := List.mem_map.1 (rescopeAll_eq_map depth us ▸ h)
    cases w <;> cases hcall
    obtain ⟨w, hw', rfl⟩ := ih rfl
    exact ⟨w, .argument hw hw', rfl⟩
  | items h _ ih =>
    subst hus
    obtain ⟨w, hw, hloop⟩ := List.mem_map.1 (rescopeAll_eq_map depth us ▸ h)
    cases w <;> cases hloop
    obtain ⟨w, hw', rfl⟩ := ih (show rescopeAll depth [_] = _ from rfl)
    exact ⟨w, .items hw hw', rfl⟩
  | inside h _ ih =>
    subst hus
    obtain ⟨w, hw, hloop⟩ := List.mem_map.1 (rescopeAll_eq_map depth us ▸ h)
    cases w <;> cases hloop
    obtain ⟨w, hw', rfl⟩ := ih rfl
    exact ⟨w, .inside hw hw', rfl⟩

/-! ### References -/

/-- The name of a usage that refers to something, with what it is taken for. -/
def reference? : Usage → Option (String × Qualifier)
  | path _ name q _ => some (name, q)
  | call _ name q _ => some (name, q)
  | listener _ method q => some (method, q)
  | _ => none

mutual

/-- The names inside a usage that are looked up, each with the frames of the loops around it. -/
def lookups : Usage → List (List Frame × String × Qualifier)
  | path _ name q _ => [([], name, q)]
  | call _ name q args => ([], name, q) :: lookupsOf args
  | literal _ => []
  | loop _ items frame _ children =>
    lookups items ++ (lookupsOf children).map fun r => (frame :: r.1, r.2)
  | attributeName .. => []
  | listener _ method q => [([], method, q)]
  | dataFlow .. => []
  | callback .. => []

/-- The names inside some usages that are looked up. -/
def lookupsOf : List Usage → List (List Frame × String × Qualifier)
  | [] => []
  | u :: us => lookups u ++ lookupsOf us

end

mutual

theorem exists_of_mem_lookups {r : String × Qualifier} : ∀ {u : Usage} {fs : List Frame},
    (fs, r) ∈ lookups u → ∃ v, Within [u] fs v ∧ reference? v = some r
  | path .., fs, h => by
    cases List.mem_singleton.1 h
    exact ⟨_, .here (List.mem_singleton_self _), rfl⟩
  | call span name q args, fs, h => by
    rcases List.mem_cons.1 h with h | h
    · cases h
      exact ⟨_, .here (List.mem_singleton_self _), rfl⟩
    · obtain ⟨v, hv, hr⟩ := exists_of_mem_lookupsOf h
      exact ⟨v, .argument (List.mem_singleton_self _) hv, hr⟩
  | loop span items frame depth children, fs, h => by
    rcases List.mem_append.1 h with h | h
    · obtain ⟨v, hv, hr⟩ := exists_of_mem_lookups h
      exact ⟨v, .items (List.mem_singleton_self _) hv, hr⟩
    · obtain ⟨⟨gs, r'⟩, hmem, heq⟩ := List.mem_map.1 h
      cases heq
      obtain ⟨v, hv, hr⟩ := exists_of_mem_lookupsOf hmem
      exact ⟨v, .inside (List.mem_singleton_self _) hv, hr⟩
  | listener .., fs, h => by
    cases List.mem_singleton.1 h
    exact ⟨_, .here (List.mem_singleton_self _), rfl⟩
  | literal _, fs, h => by cases h
  | attributeName .., fs, h => by cases h
  | dataFlow .., fs, h => by cases h
  | callback .., fs, h => by cases h

/-- What is listed stands inside the usages and is a reference. -/
theorem exists_of_mem_lookupsOf {r : String × Qualifier} : ∀ {us : List Usage} {fs : List Frame},
    (fs, r) ∈ lookupsOf us → ∃ v, Within us fs v ∧ reference? v = some r
  | [], fs, h => by cases h
  | u :: us, fs, h => by
    rcases List.mem_append.1 h with h | h
    · obtain ⟨v, hv, hr⟩ := exists_of_mem_lookups h
      exact ⟨v, within_iff.2 ⟨u, List.mem_cons_self .., hv⟩, hr⟩
    · obtain ⟨v, hv, hr⟩ := exists_of_mem_lookupsOf h
      obtain ⟨w, hw, hwv⟩ := within_iff.1 hv
      exact ⟨v, within_iff.2 ⟨w, List.mem_cons_of_mem _ hw, hwv⟩, hr⟩

end

end Usage

end Relabel
