import Relabel.Proofs.Extraction.Walked
import Relabel.Proofs.Extraction.Within

/-!
# Where the expressions of flows and loops come from

A data flow takes its value from a usage next to it, and a callback is called with the list of the loop
next to it (`Usage.Linked`). Closing a loop changes what names are qualified by, but not how they are
written, so this stays true: it holds of every list of usages that a walk finds (`Walked.linked`).
-/

namespace Relabel
open Text
open Markup (Node Head Attribute preorderOf)
open Fragment (Phrase)
variable {u : Usage} {us vs : List Usage} {found : Found} {scope : Scope} {site : Site} {head : Head}
  {a : Attribute}

/-! ### Rescoped expressions -/

theorem Qualifier.phrase_rescope (depth : Nat) (q : Qualifier) (path : String) :
    (q.rescope depth).phrase path = q.phrase path := by
  unfold Qualifier.rescope
  split
  · split <;> rfl
  · rfl

namespace Usage

mutual

theorem phrase?_rescope (depth : Nat) : ∀ u : Usage, (u.rescope depth).phrase? = u.phrase?
  | path span name q role => by rw [rescope, phrase?, phrase?, q.phrase_rescope]
  | call span name q args => by
    rw [rescope, phrase?, phrase?, q.phrase_rescope, phrasesOf_rescopeAll depth args]
  | literal _ => rfl
  | loop .. => rfl
  | attributeName .. => rfl
  | listener .. => rfl
  | dataFlow .. => rfl
  | callback .. => rfl

theorem phrasesOf_rescopeAll (depth : Nat) : ∀ us : List Usage,
    phrasesOf (rescopeAll depth us) = phrasesOf us
  | [] => rfl
  | u :: us => by
    rw [rescopeAll, phrasesOf, phrasesOf, phrase?_rescope depth u, phrasesOf_rescopeAll depth us]

end

theorem isAssignable_rescope (depth : Nat) (u : Usage) :
    (u.rescope depth).isAssignable = u.isAssignable := by
  cases u <;> rfl

/-! ### Linked usages -/

/-- What may be an argument of a call. -/
def IsArgument : Usage → Prop
  | path .. => True
  | literal _ => True
  | _ => False

/-- What a usage takes its value from, or is called with, stands next to it: among `us`. Literals stand
in calls only. -/
inductive Linked : List Usage → Usage → Prop where
  | path {us : List Usage} {span : Span} {name : String} {q : Qualifier} {role : PathRole} :
      Linked us (.path span name q role)
  | call {us : List Usage} {span : Span} {name : String} {q : Qualifier} {args : List Usage}
      (hargs : ∀ a ∈ args, a.IsArgument) : Linked us (.call span name q args)
  | loop {us : List Usage} {span : Span} {items : Usage} {frame : Frame} {depth : Nat}
      {children : List Usage} (hitems : Linked [] items) (hvalue : items.phrase?.isSome = true)
      (hchildren : ∀ c ∈ children, Linked children c) : Linked us (.loop span items frame depth children)
  | attributeName {us : List Usage} {span : Span} {tag type property : String} :
      Linked us (.attributeName span tag type property)
  | listener {us : List Usage} {span : Span} {method : String} {q : Qualifier} :
      Linked us (.listener span method q)
  | dataFlow {us : List Usage} {span : Span} {tag type property : String} {source : Phrase}
      {twoWay : Bool} {primary : Usage} (hprimary : primary ∈ us) (hsource : primary.phrase? = some source)
      (htwoWay : twoWay = true → primary.isAssignable = true) :
      Linked us (.dataFlow span tag type property source twoWay)
  | callback {us : List Usage} {kind : CallbackKind} {span span' : Span} {f items : Phrase}
      {function list : Usage} {frame : Frame} {depth : Nat} {children : List Usage}
      (hfunction : function ∈ us) (hf : function.phrase? = some f)
      (hloop : .loop span' list frame depth children ∈ us) (hitems : list.phrase? = some items) :
      Linked us (.callback kind span f items)

theorem Linked.mono (h : Linked us u) (hsubset : us ⊆ vs) : Linked vs u := by
  cases h with
  | path => exact .path
  | call hargs => exact .call hargs
  | loop hitems hvalue hchildren => exact .loop hitems hvalue hchildren
  | attributeName => exact .attributeName
  | listener => exact .listener
  | dataFlow hprimary hsource htwoWay => exact .dataFlow (hsubset hprimary) hsource htwoWay
  | callback hfunction hf hloop hitems =>
    exact .callback (hsubset hfunction) hf (hsubset hloop) hitems

theorem IsArgument.rescope {depth : Nat} (h : u.IsArgument) : (u.rescope depth).IsArgument := by
  cases u <;> first | exact h.elim | trivial

theorem mem_rescopeAll {depth : Nat} (h : u ∈ us) : u.rescope depth ∈ rescopeAll depth us := by
  rw [rescopeAll_eq_map]
  exact List.mem_map_of_mem h

/-- Closing a loop links what was linked. -/
theorem Linked.rescope {depth : Nat} (h : Linked us u) : Linked (rescopeAll depth us) (u.rescope depth) := by
  induction h with
  | path => exact .path
  | call hargs =>
    refine .call fun a ha => ?_
    rw [rescopeAll_eq_map] at ha
    obtain ⟨b, hb, rfl⟩ := List.mem_map.1 ha
    exact (hargs b hb).rescope
  | loop _ hvalue _ ihitems ihchildren =>
    refine .loop ihitems (by rwa [phrase?_rescope]) fun c hc => ?_
    rw [rescopeAll_eq_map] at hc
    obtain ⟨b, hb, rfl⟩ := List.mem_map.1 hc
    exact ihchildren b hb
  | attributeName => exact .attributeName
  | listener => exact .listener
  | @dataFlow _ _ _ _ _ _ _ primary hprimary hsource htwoWay =>
    refine .dataFlow (mem_rescopeAll hprimary) (by rwa [phrase?_rescope]) fun h => ?_
    rw [isAssignable_rescope]
    exact htwoWay h
  | callback hfunction hf hloop hitems =>
    exact .callback (mem_rescopeAll hfunction) (by rwa [phrase?_rescope]) (mem_rescopeAll hloop)
      (by rwa [phrase?_rescope])

end Usage

/-- Usages that were found are linked among each other. -/
def Found.Linked (found : Found) : Prop :=
  ∀ u ∈ found.usages, u.Linked found.usages

namespace Found

theorem linked_nil (warnings : List Warning) : Found.Linked ⟨[], warnings⟩ :=
  fun _ hu => nomatch hu

theorem Linked.append {found' : Found} (h : found.Linked) (h' : found'.Linked) :
    (found ++ found').Linked := fun u hu =>
  (List.mem_append.1 hu).elim (fun hu => (h u hu).mono (List.subset_append_left ..))
    fun hu => (h' u hu).mono (List.subset_append_right ..)

theorem linked_concat {parts : List Found} (h : ∀ part ∈ parts, part.Linked) : (concat parts).Linked := by
  induction parts with
  | nil => exact linked_nil _
  | cons part parts ih =>
    exact (h part (List.mem_cons_self ..)).append (ih fun p hp => h p (List.mem_cons_of_mem _ hp))

/-- Usages that take no value from others are linked. -/
theorem linked_of_nil (h : ∀ u ∈ found.usages, u.Linked []) : found.Linked :=
  fun u hu => (h u hu).mono (List.nil_subset _)

end Found

namespace Site

/-! ### Attributes and texts -/

theorem linked_pathUsage (p : Piece) (role : PathRole) : (site.pathUsage scope p role).1.Linked us := by
  obtain ⟨q, -, h⟩ := looked_pathUsage site scope p role
  rw [h]
  exact .path

theorem linked_bindingUsage? {b : Binding} {r : Usage × List Warning}
    (h : site.bindingUsage? scope b = some r) : r.1.Linked us := by
  unfold bindingUsage? at h
  split at h
  · split at h
    · cases h
    · cases h
      exact linked_pathUsage ..
  · cases h
    refine .call fun a ha => ?_
    obtain ⟨_, hr, rfl⟩ := List.mem_map.1 ha
    obtain ⟨arg, -, rfl⟩ := List.mem_map.1 hr
    cases arg with
    | literal piece => trivial
    | path piece =>
      obtain ⟨q, -, hpath⟩ := looked_pathUsage site scope piece .expression
      rw [argumentUsage, hpath]
      trivial
  · cases h

theorem linked_bindingUsages (bindings : List Binding) :
    ∀ u ∈ (site.bindingUsages scope bindings).usages, u.Linked us := by
  intro u hu
  obtain ⟨r, hr, rfl⟩ := List.mem_map.1 hu
  obtain ⟨b, -, hb⟩ := List.mem_filterMap.1 hr
  exact linked_bindingUsage? hb

theorem linked_attributeNameUsage? {tag property : String} {start : Nat} {name : List Char} :
    ∀ u ∈ site.attributeNameUsage? tag property start name, u.Linked us := by
  intro u hu
  obtain ⟨type, -, rfl⟩ := Option.map_eq_some_iff.1 hu
  exact .attributeName

/-- A data flow takes the value of one of the bound usages. -/
theorem linked_dataFlow? {tag property : String} {value : Piece} {bindings : List Binding} :
    ∀ u ∈ site.dataFlow? tag property value bindings us, isDataFlow u = true ∧ u.Linked us := by
  intro u hu
  unfold dataFlow? at hu
  split at hu
  · simp only [Option.mem_def, Option.bind_eq_bind, Option.bind_eq_some_iff, Option.pure_def,
      Option.some.injEq] at hu
    obtain ⟨_, _, primary, hprimary, type, _, source, hsource, rfl⟩ := hu
    refine ⟨rfl, .dataFlow (List.mem_of_head? hprimary) hsource fun h => ?_⟩
    exact (Bool.and_eq_true_iff.1 h).2
  · cases hu

/-- The usages of an attribute are linked, and only its data flow takes a value from another. -/
theorem linked_attributeUsages (site : Site) (scope : Scope) (head : Head) (a : Attribute) :
    ∀ u ∈ (site.attributeUsages scope head a).usages,
      u.Linked (site.attributeUsages scope head a).usages ∧ (isDataFlow u = false → u.Linked []) := by
  simp only [attributeUsages]
  generalize hnamed : (if site.attributeRenameable head.effectiveTag
      (propertyOf (withoutDollar a.name.text.toList)) = true then _ else _ : Found) = named
  have hnamed' : ∀ u ∈ named.usages, ∀ us, u.Linked us := by
    subst hnamed
    split
    · exact fun u hu us => linked_attributeNameUsage? u (Option.mem_toList.1 hu)
    · exact fun u hu => nomatch hu
  split
  · exact fun u hu => ⟨hnamed' u hu _, fun _ => hnamed' u hu _⟩
  · next value hvalue =>
    intro u hu
    rcases List.mem_append.1 hu with hu | hu
    · have hfree (us : List Usage) : u.Linked us :=
        (List.mem_append.1 hu).elim (fun hu => hnamed' u hu us) (linked_bindingUsages _ u)
      exact ⟨hfree _, fun _ => hfree _⟩
    · split at hu
      · obtain ⟨hflow, hlinked⟩ := linked_dataFlow? u (Option.mem_toList.1 hu)
        refine ⟨hlinked.mono fun w hw => ?_, fun hnot => ?_⟩
        · exact List.mem_append_left _ (List.mem_append_right _ hw)
        · exact absurd hflow (Bool.eq_false_iff.1 hnot)
      · cases hu

theorem linked_allAttributeUsages (site : Site) (scope : Scope) (head : Head) (a : Attribute) :
    (site.allAttributeUsages scope head a).Linked := by
  have hown := linked_attributeUsages site scope head a
  simp only [allAttributeUsages]
  split
  · refine Found.linked_of_nil fun u hu => ?_
    rcases List.mem_append.1 hu with hu | hu
    · rcases List.mem_append.1 hu with hu | hu
      · obtain ⟨hmem, hnot⟩ := List.mem_filter.1 hu
        exact (hown u hmem).2 (by simpa using hnot)
      · unfold listenerUsages at hu
        split at hu
        · cases hu
        · simp only at hu
          split at hu
          · cases hu
          · split at hu <;> obtain rfl := List.mem_singleton.1 hu <;> exact .listener
    · unfold changedUsages at hu
      simp only at hu
      split at hu
      · split at hu
        · split at hu
          · exact linked_attributeNameUsage? u (Option.mem_toList.1 hu)
          · cases hu
        · split at hu <;> cases hu
      · cases hu
  · exact fun u hu => (hown u hu).1

theorem linked_ownUsages (site : Site) (scope : Scope) (head : Head) :
    (site.ownUsages scope head).Linked := by
  refine Found.linked_concat (List.forall_mem_map.2 fun r hr => ?_)
  obtain ⟨a, -, rfl⟩ := List.mem_map.1 hr
  dsimp only
  exact linked_allAttributeUsages site scope head a

/-! ### Loops -/

/-- What an attribute is bound to is one of the usages of the element, and takes no value from
another. -/
theorem mem_ownUsages_of_boundUsage? {key : String}
    (h : boundUsage? (site.attributesFound scope head) key = some u) :
    u ∈ (site.ownUsages scope head).usages := by
  simp only [boundUsage?, Option.bind_eq_bind, Option.bind_eq_some_iff] at h
  obtain ⟨r, hr, hhead⟩ := h
  have hmem := (List.mem_filter.1 (List.mem_of_head? hhead)).1
  have hr := List.mem_reverse.1 (List.mem_of_find?_eq_some hr)
  unfold ownUsages
  generalize site.attributesFound scope head = found at hr
  induction found with
  | nil => cases hr
  | cons r' found ih =>
    rcases List.mem_cons.1 hr with rfl | hr
    · exact List.mem_append_left _ hmem
    · exact List.mem_append_right _ (ih hr)

theorem linked_nil_of_phrase? {p : Phrase} (h : u.Linked us) (hp : u.phrase? = some p) : u.Linked [] := by
  cases h with
  | path => exact .path
  | call hargs => exact .call hargs
  | loop => cases hp
  | attributeName => cases hp
  | listener => cases hp
  | dataFlow => cases hp
  | callback => cases hp

/-- A callback calls a usage of the loop's element, or the method that stands next to it, with the list
of the loop. -/
theorem linked_callbackUsages {attr key : String} {kind : CallbackKind} {items : Phrase} {span : Span}
    {list : Usage} {frame : Frame} {depth : Nat} {children : List Usage}
    (hbefore : (site.callbackUsages scope head attr kind
      (boundUsage? (site.attributesFound scope head) key) items).usages ⊆ us)
    (hown : (site.ownUsages scope head).usages ⊆ us) (hloop : .loop span list frame depth children ∈ us)
    (hitems : list.phrase? = some items) :
    ∀ u ∈ (site.callbackUsages scope head attr kind
      (boundUsage? (site.attributesFound scope head) key) items).usages, u.Linked us := by
  have hcall {function : Usage} (hfunction : function ∈ us) :
      ∀ u ∈ callbackUsage? kind function items, u.Linked us := by
    intro u hu
    simp only [callbackUsage?, Option.mem_def, Option.bind_eq_bind, Option.bind_eq_some_iff,
      Option.pure_def, Option.some.injEq] at hu
    obtain ⟨_, -, f, hf, rfl⟩ := hu
    exact .callback hfunction hf hloop hitems
  unfold callbackUsages at hbefore ⊢
  split
  · exact fun u hu => absurd hu List.not_mem_nil
  · next hattr =>
    rw [if_neg hattr] at hbefore
    split at hbefore
    · next function hbound =>
      -- the attribute binds a usage of the element itself
      exact fun u hu => hcall (hown (mem_ownUsages_of_boundUsage? hbound)) u (Option.mem_toList.1 hu)
    · split at hbefore
      · next function warnings hnamed =>
        -- the attribute is the bare name of a method
        intro u hu
        rcases List.mem_cons.1 hu with rfl | hu
        · unfold namedCallback at hnamed
          split at hnamed
          · cases hnamed
          · simp only at hnamed
            split at hnamed
            · cases hnamed
            · split at hnamed
              · cases hnamed
                exact .path
              · cases hnamed
        · exact hcall (hbefore (List.mem_cons_self ..)) u (Option.mem_toList.1 hu)
      · exact fun u hu => absurd hu List.not_mem_nil

theorem linked_inside {opening : Opening}
    (h : site.openLoop scope head (site.attributesFound scope head) = .ok opening) :
    opening.inside.Linked := by
  obtain ⟨-, -, itemName, indexName, -, -, hinside⟩ := openLoop_eq_ok h
  have hvariable {role : LoopRole} {bound : LoopVariable} {depth : Nat} {name : Option Piece} :
      ∀ u ∈ (variableUsage? role bound depth name).toList, u.Linked [] := by
    intro u hu
    simp only [variableUsage?, Option.mem_toList, Option.bind_eq_bind, Option.bind_eq_some_iff,
      Option.pure_def, Option.some.injEq] at hu
    obtain ⟨_, -, -, -, rfl⟩ := hu
    exact .path
  rw [hinside]
  refine Found.linked_of_nil fun u hu => ?_
  rcases List.mem_append.1 hu with hu | hu
  · exact (List.mem_append.1 hu).elim (hvariable u) (hvariable u)
  · unfold observedUsages at hu
    split at hu
    · cases hu
    · split at hu
      · cases hu
      · obtain ⟨r, hr, rfl⟩ := List.mem_map.1 hu
        obtain ⟨entry, -, rfl⟩ := List.mem_map.1 hr
        exact linked_pathUsage ..

/-- A loop with what stands before it and around its list. -/
theorem linked_closeLoop {opening : Opening} {content : Found}
    (h : site.openLoop scope head (site.attributesFound scope head) = .ok opening)
    (hcontent : content.Linked) :
    (site.ownUsages scope head ++ closeLoop scope head opening content).Linked := by
  obtain ⟨hitems, ⟨phrase, hphrase, hbefore⟩, -⟩ := openLoop_eq_ok h
  have hinside : (opening.inside ++ content).Linked := (linked_inside h).append hcontent
  have hown := linked_ownUsages site scope head
  set found := site.ownUsages scope head ++ closeLoop scope head opening content with hfound
  have hmem : (site.ownUsages scope head).usages ⊆ found.usages := List.subset_append_left ..
  have hclose : (closeLoop scope head opening content).usages ⊆ found.usages :=
    List.subset_append_right ..
  have hbeforeMem : opening.before.usages ⊆ found.usages := fun u hu =>
    hclose (List.mem_append_left _ hu)
  rw [hbefore] at hbeforeMem
  have hloop := hclose (List.mem_append_right _ (List.mem_singleton_self _))
  intro u hu
  rcases List.mem_append.1 hu with hu | hu
  · exact (hown u hu).mono hmem
  · rcases List.mem_append.1 hu with hu | hu
    · rw [hbefore] at hu
      rcases List.mem_append.1 hu with hu | hu
      · refine linked_callbackUsages (fun w hw => ?_) hmem hloop hphrase u hu
        exact hbeforeMem (List.mem_append_left _ hw)
      · refine linked_callbackUsages (fun w hw => ?_) hmem hloop hphrase u hu
        exact hbeforeMem (List.mem_append_right _ hw)
    · obtain rfl := List.mem_singleton.1 hu
      have hlist := linked_nil_of_phrase? (hown _ (mem_ownUsages_of_boundUsage? hitems)) hphrase
      refine .loop hlist (by rw [hphrase]; rfl) ?_
      split
      · intro c hc
        rw [Usage.rescopeAll_eq_map] at hc
        obtain ⟨b, hb, rfl⟩ := List.mem_map.1 hc
        exact (hinside b hb).rescope
      · exact hinside

/-- All that a walk finds is linked. -/
theorem Walked.linked {nodes : List Node} (h : site.Walked scope nodes found) : found.Linked := by
  induction h with
  | nil => exact Found.linked_nil _
  | cons _ _ ihn ihns => exact ihn.append ihns
  | comment => exact Found.linked_nil _
  | text => exact Found.linked_of_nil (linked_bindingUsages _)
  | element _ _ ih => exact Found.Linked.append (linked_ownUsages site _ _) ih
  | loop _ hopening _ _ ih => exact linked_closeLoop hopening ih

end Site

end Relabel
