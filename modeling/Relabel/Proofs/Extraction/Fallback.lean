import Relabel.Proofs.Extraction.Mentions

/-!
# Names that nobody knows

A path that is taken for a part of the component, although the component has no property and no method of
that name, is taken for one that may be renamed, and so is a method. Everything that a walk finds falls
back in this way (`Walked.allFallBack`).
-/

namespace Relabel
open Text
open Markup (Node Head Attribute)
variable {site : Site} {scope s : Scope} {head : Head} {a : Attribute} {u : Usage} {q : Qualifier}

/-- A name that the component lacks is taken for a part of it that may be renamed. -/
def Usage.FallsBack (s : Scope) : Usage → Prop
  | .path _ p q _ => s.hasProperty p = false → s.hasMethod p = false →
      ∀ renameable, q = .component renameable → renameable = true
  | .call _ name q _ => s.hasMethod name = false → ∀ renameable, q = .component renameable → renameable = true
  | .listener _ name q => s.hasMethod name = false → ∀ renameable, q = .component renameable → renameable = true
  | _ => True

/-- Everything in a usage falls back, whatever loops are around it. -/
def Usage.AllFallBack (s : Scope) (u : Usage) : Prop :=
  ∀ fs, Usage.Holds (fun _ v => v.FallsBack s) fs u

def Found.AllFallBack (s : Scope) (found : Found) : Prop :=
  ∀ u ∈ found.usages, u.AllFallBack s

theorem Qualifier.eq_component_of_rescope {depth : Nat} {renameable : Bool}
    (h : q.rescope depth = .component renameable) : q = .component renameable := by
  cases q with
  | component r => exact h
  | item base => cases h
  | loop role bound d =>
    cases role with
    | index => cases h
    | item =>
      rw [rescope] at h
      split at h <;> cases h

theorem Usage.FallsBack.rescope (h : u.FallsBack s) (depth : Nat) : (u.rescope depth).FallsBack s := by
  cases u with
  | path span p q role =>
    exact fun hproperty hmethod r hq => h hproperty hmethod r (Qualifier.eq_component_of_rescope hq)
  | call span name q args => exact fun hmethod r hq => h hmethod r (Qualifier.eq_component_of_rescope hq)
  | listener span name q => exact fun hmethod r hq => h hmethod r (Qualifier.eq_component_of_rescope hq)
  | _ => trivial

theorem Usage.allFallBack_leaf (hu : u.IsLeaf) (h : u.FallsBack s) : u.AllFallBack s :=
  fun _ => holds_leaf hu h

namespace Found
variable {found found' : Found}

theorem AllFallBack.append (h : found.AllFallBack s) (h' : found'.AllFallBack s) : (found ++ found').AllFallBack s :=
  fun u hu => (List.mem_append.1 hu).elim (h u) (h' u)

theorem allFallBack_nil (warnings : List Warning) : Found.AllFallBack s ⟨[], warnings⟩ :=
  fun _ hu => nomatch hu

theorem allFallBack_concat {parts : List Found} (h : ∀ part ∈ parts, part.AllFallBack s) :
    (concat parts).AllFallBack s := by
  induction parts with
  | nil => exact allFallBack_nil _
  | cons part parts ih =>
    exact (h part (List.mem_cons_self ..)).append (ih fun p hp => h p (List.mem_cons_of_mem _ hp))

end Found

namespace Site

theorem hasProperty_of_lookup {p name owner : String} {renameable : Bool}
    (h : scope.lookup p = some (.component name renameable owner)) : scope.hasProperty p = true := by
  simp only [Scope.lookup] at h
  split at h
  · cases h
  · simp only [Option.bind_eq_bind, Option.bind_eq_some_iff] at h
    obtain ⟨schema, hschema, property, hproperty, -⟩ := h
    simp [Scope.hasProperty, hschema, hproperty]

theorem hasMethod_of_methodQualifier? {name : String} {renameable : Bool}
    (h : methodQualifier? scope name = some (.component renameable)) : scope.hasMethod name = true := by
  unfold methodQualifier? at h
  split at h
  · cases h
  · obtain ⟨r, hr, -⟩ := Option.map_eq_some_iff.1 h
    rw [← Scope.isSome_methodRenameable?, hr]
    rfl

theorem allFallBack_pathUsage (site : Site) (scope : Scope) (p : Piece) (role : PathRole) :
    (site.pathUsage scope p role).1.AllFallBack scope := by
  unfold pathUsage
  split
  · next r hr =>
    refine Usage.allFallBack_leaf trivial fun hproperty _ renameable hq => ?_
    cases r with
    | loop => cases hq
    | component name renameable' owner =>
      rw [hasProperty_of_lookup hr] at hproperty
      cases hproperty
  · split
    · next renameable' hr =>
      refine Usage.allFallBack_leaf trivial fun _ hmethod => ?_
      rw [← Scope.isSome_methodRenameable?, hr] at hmethod
      cases hmethod
    · refine Usage.allFallBack_leaf trivial fun _ _ renameable hq => ?_
      cases hq
      rfl

theorem component_of_methodQualifier? {name : String} {renameable : Bool} (hmethod : scope.hasMethod name = false)
    (h : (methodQualifier? scope name).getD (.component true) = .component renameable) : renameable = true := by
  cases hq : methodQualifier? scope name with
  | none =>
    rw [hq] at h
    cases h
    rfl
  | some q =>
    rw [hq] at h
    obtain rfl : q = .component renameable := h
    rw [hasMethod_of_methodQualifier? hq] at hmethod
    cases hmethod

theorem allFallBack_callUsage (site : Site) (scope : Scope) (method : Piece) (args : List Argument) :
    (site.callUsage scope method args).1.AllFallBack scope := by
  have hcall : (site.callUsage scope method args).1 = .call method.span method.text
      ((methodQualifier? scope method.text).getD (.component true))
      ((args.map (site.argumentUsage scope)).map (·.1)) := by
    unfold callUsage
    cases methodQualifier? scope method.text <;> rfl
  rw [hcall]
  refine fun fs => Usage.holds_call (fun hmethod renameable => component_of_methodQualifier? hmethod) fun u hu => ?_
  obtain ⟨_, hr, rfl⟩ := List.mem_map.1 hu
  obtain ⟨arg, -, rfl⟩ := List.mem_map.1 hr
  cases arg with
  | literal piece => exact Usage.holds_leaf (u := .literal piece.text) trivial trivial
  | path piece => exact allFallBack_pathUsage site scope piece .expression fs

theorem allFallBack_bindingUsages (site : Site) (scope : Scope) (bs : List Binding) :
    (site.bindingUsages scope bs).AllFallBack scope := by
  intro u hu
  obtain ⟨r, hr, rfl⟩ := List.mem_map.1 hu
  obtain ⟨b, -, hb⟩ := List.mem_filterMap.1 hr
  unfold bindingUsage? at hb
  split at hb
  · split at hb
    · cases hb
    · cases hb
      exact allFallBack_pathUsage site scope _ .expression
  · cases hb
    exact allFallBack_callUsage site scope _ _
  · cases hb

theorem allFallBack_of_isAttributeName (h : isAttributeName u = true) : u.AllFallBack s := by
  cases u <;> cases h
  exact Usage.allFallBack_leaf trivial trivial

theorem allFallBack_of_isDataFlow (h : isDataFlow u = true) : u.AllFallBack s := by
  cases u <;> cases h
  exact Usage.allFallBack_leaf trivial trivial

theorem allFallBack_attributeNameUsage? {tag property : String} {start : Nat} {name : List Char} :
    ∀ u ∈ site.attributeNameUsage? tag property start name, u.AllFallBack s := by
  intro u hu
  obtain ⟨type, -, rfl⟩ := Option.map_eq_some_iff.1 hu
  exact Usage.allFallBack_leaf trivial trivial

theorem allFallBack_attributeUsages (site : Site) (scope : Scope) (head : Head) (a : Attribute) :
    (site.attributeUsages scope head a).AllFallBack scope := by
  obtain ⟨flow, husages, hflow, -⟩ := exists_attributeUsages site scope head a
  intro u hu
  rw [husages, List.mem_append, List.mem_append] at hu
  rcases hu with (hu | hu) | hu
  · exact allFallBack_of_isAttributeName (isAttributeName_of_mem_ownName? (Option.mem_toList.1 hu))
  · exact allFallBack_bindingUsages site scope a.bindings u hu
  · exact allFallBack_of_isDataFlow (hflow u hu)

theorem allFallBack_listenerUsages (site : Site) (scope : Scope) (tag : String) (a : Attribute) :
    (site.listenerUsages scope tag a).AllFallBack scope := by
  unfold listenerUsages
  cases a.value with
  | none => exact Found.allFallBack_nil _
  | some v =>
    simp only
    split
    · exact Found.allFallBack_nil _
    · have hlistener (warnings : List Warning) : Found.AllFallBack scope (.one (.listener (trimmed v).span
          (trimmed v).text ((methodQualifier? scope (trimmed v).text).getD (.component true))) warnings) := by
        intro u hu
        obtain rfl := List.mem_singleton.1 hu
        exact Usage.allFallBack_leaf trivial fun hmethod renameable => component_of_methodQualifier? hmethod
      cases hq : methodQualifier? scope (trimmed v).text with
      | none => rw [hq] at hlistener; exact hlistener _
      | some q => rw [hq] at hlistener; exact hlistener _

theorem allFallBack_changedUsages (site : Site) (scope : Scope) (head : Head) (a : Attribute) :
    (site.changedUsages scope head a).AllFallBack s := by
  simp only [changedUsages]
  split
  · split
    · split
      · exact fun u hu => allFallBack_attributeNameUsage? u (Option.mem_toList.1 hu)
      · exact Found.allFallBack_nil _
    · split
      · exact Found.allFallBack_nil _
      · exact Found.allFallBack_nil _
  · exact Found.allFallBack_nil _

theorem allFallBack_allAttributeUsages (site : Site) (scope : Scope) (head : Head) (a : Attribute) :
    (site.allAttributeUsages scope head a).AllFallBack scope := by
  have hfound := allFallBack_attributeUsages site scope head a
  simp only [allAttributeUsages]
  split
  · have hlistener := allFallBack_listenerUsages site scope head.effectiveTag a
    refine Found.AllFallBack.append (Found.AllFallBack.append ?_ hlistener)
      (allFallBack_changedUsages site scope head a)
    exact fun u hu => hfound u (List.mem_filter.1 hu).1
  · exact hfound

theorem allFallBack_ownUsages (site : Site) (scope : Scope) (head : Head) :
    ∀ r ∈ site.attributesFound scope head, r.2.AllFallBack scope :=
  List.forall_mem_map.2 fun a _ => allFallBack_allAttributeUsages site scope head a

theorem allFallBack_boundUsage? {key : String} (h : boundUsage? (site.attributesFound scope head) key = some u) :
    u.AllFallBack scope := by
  obtain ⟨r, hr, hu⟩ := Option.bind_eq_some_iff.1 h
  have hmem := List.mem_reverse.1 (List.mem_of_find?_eq_some hr)
  exact allFallBack_ownUsages site scope head r hmem u (List.mem_filter.1 (List.mem_of_mem_head? hu)).1

theorem allFallBack_callbackUsage? {kind : CallbackKind} {function : Usage} {items : Fragment.Phrase} :
    ∀ u ∈ callbackUsage? kind function items, u.AllFallBack s := by
  intro u hu
  simp only [callbackUsage?, Option.mem_def, Option.bind_eq_bind, Option.bind_eq_some_iff,
    Option.pure_def, Option.some.injEq] at hu
  obtain ⟨span, -, phrase, -, rfl⟩ := hu
  exact Usage.allFallBack_leaf trivial trivial

/-- The name of a callback is that of a method. -/
theorem allFallBack_namedCallback {attr : String} :
    ∀ u ∈ (site.namedCallback scope head attr).1, u.AllFallBack scope := by
  intro u hu
  unfold namedCallback at hu
  split at hu
  · cases hu
  · simp only at hu
    split at hu
    · cases hu
    · split at hu
      · next renameable hr =>
        cases hu
        refine Usage.allFallBack_leaf trivial fun _ hmethod => ?_
        rw [← Scope.isSome_methodRenameable?, hr] at hmethod
        cases hmethod
      · cases hu

theorem allFallBack_callbackUsages (site : Site) (scope : Scope) (head : Head) (attr : String) (kind : CallbackKind)
    (bound : Option Usage) (items : Fragment.Phrase) :
    (site.callbackUsages scope head attr kind bound items).AllFallBack scope := by
  unfold callbackUsages
  split
  · exact Found.allFallBack_nil _
  · split
    · exact fun u hu => allFallBack_callbackUsage? u (Option.mem_toList.1 hu)
    · split
      · next function warnings hnamed =>
        have hfunction : function.AllFallBack scope := by
          have hmem : function ∈ (site.namedCallback scope head attr).1 := by rw [hnamed]; rfl
          exact allFallBack_namedCallback function hmem
        intro u hu
        rcases List.mem_cons.1 hu with rfl | hu
        · exact hfunction
        · exact allFallBack_callbackUsage? u (Option.mem_toList.1 hu)
      · exact Found.allFallBack_nil _

theorem allFallBack_variableUsage? {role : LoopRole} {bound : LoopVariable} {depth : Nat} {name : Option Piece} :
    ∀ u ∈ variableUsage? role bound depth name, u.AllFallBack s := by
  intro u hu
  simp only [variableUsage?, Option.mem_def, Option.bind_eq_bind, Option.bind_eq_some_iff,
    Option.guard_eq_some', Option.pure_def, Option.some.injEq] at hu
  obtain ⟨p, -, _, -, rfl⟩ := hu
  refine Usage.allFallBack_leaf trivial fun _ _ renameable hq => ?_
  cases hq

theorem allFallBack_observedUsages (site : Site) (scope : Scope) (head : Head) (item : String) :
    (site.observedUsages scope head item).AllFallBack scope := by
  unfold observedUsages
  split
  · exact Found.allFallBack_nil _
  · split
    · exact Found.allFallBack_nil _
    · intro u hu
      obtain ⟨_, hr, rfl⟩ := List.mem_map.1 hu
      obtain ⟨entry, -, rfl⟩ := List.mem_map.1 hr
      exact allFallBack_pathUsage site scope _ .observed

theorem allFallBack_closeLoop {opening : Opening} {content : Found}
    (h : site.openLoop scope head (site.attributesFound scope head) = .ok opening)
    (hcontent : content.AllFallBack scope) : (closeLoop scope head opening content).AllFallBack scope := by
  obtain ⟨hitems, ⟨phrase, -, hbefore⟩, itemName, indexName, -, -, hinside⟩ := openLoop_eq_ok h
  have hcallbacks : opening.before.AllFallBack scope := by
    rw [hbefore]
    exact Found.AllFallBack.append (allFallBack_callbackUsages site scope head _ _ _ _)
      (allFallBack_callbackUsages site scope head _ _ _ _)
  have hall : (opening.inside ++ content).AllFallBack scope := by
    refine Found.AllFallBack.append ?_ hcontent
    rw [hinside]
    refine Found.AllFallBack.append (fun u hu => ?_)
      (allFallBack_observedUsages site (scope.enter opening.frame) head _)
    rcases List.mem_append.1 hu with hu | hu
    · exact allFallBack_variableUsage? u (Option.mem_toList.1 hu)
    · exact allFallBack_variableUsage? u (Option.mem_toList.1 hu)
  refine hcallbacks.append fun u hu fs => ?_
  obtain rfl := List.mem_singleton.1 hu
  refine Usage.holds_loop trivial (allFallBack_boundUsage? hitems fs) fun c hc gs v hv => ?_
  have hwithin := Usage.within_iff.2 ⟨c, hc, hv⟩
  split at hwithin
  · obtain ⟨w, hw, rfl⟩ := Usage.exists_of_within_rescopeAll hwithin
    exact Usage.FallsBack.rescope (Usage.holds_of_within (fun u hu => hall u hu []) hw) _
  · exact Usage.holds_of_within (fun u hu => hall u hu []) hwithin

/-- Everything that a walk finds falls back. -/
theorem Walked.allFallBack {nodes : List Node} {found : Found} (h : site.Walked scope nodes found) :
    found.AllFallBack scope := by
  induction h with
  | nil => exact Found.allFallBack_nil _
  | cons _ _ ihn ihnodes => exact ihn.append ihnodes
  | comment => exact Found.allFallBack_nil _
  | @text scope piece => exact allFallBack_bindingUsages site scope _
  | @element scope head _ _ _ _ _ ih =>
    exact (Found.allFallBack_concat (List.forall_mem_map.2 (allFallBack_ownUsages site scope head))).append ih
  | @loop scope head _ _ _ _ _ hopening _ _ ih =>
    refine (Found.allFallBack_concat (List.forall_mem_map.2 (allFallBack_ownUsages site scope head))).append ?_
    exact allFallBack_closeLoop hopening ih

end Site

end Relabel
