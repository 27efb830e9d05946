import Relabel.Proofs.Binding.Names
import Relabel.Proofs.Extraction.Offsets
import Relabel.Proofs.Extraction.Visited

/-!
# Every binding gives one usage

The usages of a template, with the content of its loops in their place, are those of its bindings, in the
order of the text, and besides them names that loops declare, entries of `observe` lists and what is no
reference. `Covers D bs us` says so of some bindings and usages, where `D` has the spans of the declared
names; each function of the walk keeps it, so no binding is lost and none gives two usages
(`members_of_template`).
-/

namespace Relabel
open Text
open Markup (Node Head Attribute Document Carrier preorderOf bindingsOf)
variable {site : Site} {scope : Scope} {head : Head} {a : Attribute} {b : Binding} {bs bs' : List Binding}
  {u : Usage} {us us' : List Usage} {D : List Span} {ns children content : List Node}
  {document : Document} {id owner : String} {t : TemplateUsages} {warnings : List Warning}

/-! ### Bindings and their usages -/

/-- The usage that an argument gives. -/
def Argument.Makes : Argument → Usage → Prop
  | .literal p, u => u = .literal p.text
  | .path p, u => ∃ q, u = .path p.span p.text q .expression

/-- The usage that a binding gives: its path, or a call of its method. -/
def Binding.Makes (b : Binding) (u : Usage) : Prop :=
  match Expression.ofPiece b.expression with
  | .path p => ∃ q, u = .path p.span p.text q .expression
  | .literal _ => False
  | .call method args =>
    ∃ q us, u = .call method.span method.text q us ∧ List.Forall₂ Argument.Makes args us

theorem Piece.start_withoutSuffix {p : Piece} (hp : p.span.IsShort) :
    p.withoutSuffix.span.start = p.span.start := by
  have hstart (stem : List Char) : (located p.span.start stem).span.start = p.span.start :=
    Nat.mod_eq_of_lt hp.1
  simp only [Piece.withoutSuffix]
  split
  · exact hstart _
  · split
    · exact hstart _
    · rfl

namespace Binding

theorem Makes.start (h : b.Makes u) (hshort : b.expression.span.IsShort) :
    ∃ s, u.span? = some s ∧ s.start = b.expression.span.start := by
  unfold Makes at h
  split at h
  · next p hp =>
    obtain ⟨q, rfl⟩ := h
    refine ⟨p.span, rfl, ?_⟩
    simp only [Expression.ofPiece] at hp
    split at hp
    · cases hp
    · split at hp
      · cases hp
      · rw [← Expression.path.inj hp, Piece.start_withoutSuffix hshort]
  · exact h.elim
  · next method args hcall =>
    obtain ⟨q, us, rfl, -⟩ := h
    obtain ⟨name, between, inner, -, -, rfl, -⟩ := Expression.parts_of_call hcall
    exact ⟨_, rfl, Nat.mod_eq_of_lt hshort.1⟩

theorem Makes.path_or_call (h : b.Makes u) :
    (∃ s name q, u = .path s name q .expression) ∨ ∃ s name q us, u = .call s name q us := by
  unfold Makes at h
  split at h
  · obtain ⟨q, rfl⟩ := h
    exact .inl ⟨_, _, _, rfl⟩
  · exact h.elim
  · obtain ⟨q, us, rfl, -⟩ := h
    exact .inr ⟨_, _, _, _, rfl⟩

end Binding

namespace Site

theorem forall₂_argumentUsage (site : Site) (scope : Scope) (args : List Argument) :
    List.Forall₂ Argument.Makes args ((args.map (site.argumentUsage scope)).map (·.1)) := by
  rw [List.map_map, List.forall₂_map_right_iff, List.forall₂_same]
  intro a _
  cases a with
  | literal p => rfl
  | path p =>
    obtain ⟨q, -, h⟩ := looked_pathUsage site scope p .expression
    exact ⟨q, h⟩

theorem makes_of_bindingUsage? {r : Usage × List Warning} (h : site.bindingUsage? scope b = some r) :
    b.Makes r.1 := by
  unfold bindingUsage? at h
  unfold Binding.Makes
  cases hexpression : Expression.ofPiece b.expression with
  | path p =>
    rw [hexpression] at h
    simp only at h
    split at h
    · cases h
    · cases h
      obtain ⟨q, -, hq⟩ := looked_pathUsage site scope p .expression
      exact ⟨q, hq⟩
  | literal p =>
    rw [hexpression] at h
    cases h
  | call method args =>
    rw [hexpression] at h
    cases h
    exact ⟨_, _, rfl, forall₂_argumentUsage site scope args⟩

theorem forall₂_bindingUsages (site : Site) (scope : Scope) (bs : List Binding) :
    List.Forall₂ Binding.Makes (bs.filter Binding.isUsed) (site.bindingUsages scope bs).usages := by
  induction bs with
  | nil => exact .nil
  | cons b bs ih =>
    simp only [bindingUsages] at ih ⊢
    rw [List.filter_cons, List.filterMap_cons, ← isSome_bindingUsage? site scope b]
    cases h : site.bindingUsage? scope b with
    | none => exact ih
    | some r => exact .cons (makes_of_bindingUsage? h) ih

end Site

/-! ### Members -/

namespace Usage

mutual

/-- A usage, or for a loop what stands in it. -/
def members : Usage → List Usage
  | .loop _ _ _ _ children => membersOf children
  | u => [u]

/-- Some usages, with what stands in their loops in the place of these. -/
def membersOf : List Usage → List Usage
  | [] => []
  | u :: us => members u ++ membersOf us

end

/-- Whether a usage is a reference that is neither an entry of an `observe` list nor stands where a loop
declares a name. -/
def isBound (declared : List Span) : Usage → Bool
  | path span _ _ role => role == .expression && !declared.contains span
  | call .. => true
  | _ => false

theorem members_of_isLeaf (h : u.IsLeaf) : u.members = [u] := by
  cases u <;> first | rfl | exact h.elim

end Usage

/-- The spans at which loops name their variables and functions. -/
def Markup.Head.declared (head : Head) : List Span :=
  if head.isRepeat then
    ["as", "index-as", "sort", "filter"].filterMap fun attr =>
      ((head.attribute? attr).bind (·.value)).map fun v => (Site.trimmed v).span
  else []

/-- The spans at which the loops among some nodes, and inside them, name their variables and functions. -/
def Markup.declaredIn (ns : List Node) : List Span :=
  (preorderOf ns).flatMap fun
    | .element head _ => head.declared
    | _ => []

open Markup (declaredIn)

theorem Markup.declaredIn_cons (n : Node) (ns : List Node) :
    declaredIn (n :: ns) = declaredIn [n] ++ declaredIn ns := by
  simp [declaredIn, preorderOf]

theorem Markup.declaredIn_element (head : Head) (children : List Node) :
    declaredIn [.element head children] = head.declared ++ declaredIn children := by
  simp [declaredIn, preorderOf, Node.preorder]

theorem Markup.mem_declared {attr : String} {v : Piece} (hrepeat : head.isRepeat = true)
    (hattr : attr ∈ ["as", "index-as", "sort", "filter"])
    (hv : (head.attribute? attr).bind (·.value) = some v) : (Site.trimmed v).span ∈ head.declared := by
  rw [Markup.Head.declared, if_pos hrepeat]
  exact List.mem_filterMap.2 ⟨attr, hattr, by rw [hv]; rfl⟩

/-- Some usages are those of some bindings, in order, and besides them loops and usages that are not
bound. -/
inductive Covers (D : List Span) : List Binding → List Usage → Prop
  | nil : Covers D [] []
  | bound {b : Binding} {u : Usage} {bs : List Binding} {us : List Usage} (hb : b.Makes u)
      (h : Covers D bs us) : Covers D (b :: bs) (u :: us)
  | other {u : Usage} {bs : List Binding} {us : List Usage} (hleaf : u.IsLeaf)
      (hu : u.isBound D = false) (h : Covers D bs us) : Covers D bs (u :: us)
  | loop {span : Span} {items : Usage} {frame : Frame} {depth : Nat} {children : List Usage}
      {bs bs' : List Binding} {us : List Usage} (hchildren : Covers D bs children)
      (h : Covers D bs' us) : Covers D (bs ++ bs') (.loop span items frame depth children :: us)

namespace Covers

theorem append (h : Covers D bs us) (h' : Covers D bs' us') : Covers D (bs ++ bs') (us ++ us') := by
  induction h with
  | nil => exact h'
  | bound hb _ ih => exact .bound hb ih
  | other hleaf hu _ ih => exact .other hleaf hu ih
  | loop hchildren _ _ ih =>
    rw [List.append_assoc]
    exact .loop hchildren ih

theorem of_forall₂ (h : List.Forall₂ Binding.Makes bs us) : Covers D bs us := by
  induction h with
  | nil => exact .nil
  | cons hb _ ih => exact .bound hb ih

theorem of_others (h : ∀ u ∈ us, u.IsLeaf ∧ u.isBound D = false) : Covers D [] us := by
  induction us with
  | nil => exact .nil
  | cons u us ih =>
    obtain ⟨hleaf, hu⟩ := h u (List.mem_cons_self ..)
    exact .other hleaf hu (ih fun v hv => h v (List.mem_cons_of_mem u hv))

theorem isBound_rescope (depth : Nat) (u : Usage) : (u.rescope depth).isBound D = u.isBound D := by
  cases u <;> rfl

theorem isLeaf_rescope {depth : Nat} (h : u.IsLeaf) : (u.rescope depth).IsLeaf := by
  cases u <;> first | exact h.elim | exact h

theorem makes_rescope {depth : Nat} (h : b.Makes u) : b.Makes (u.rescope depth) := by
  unfold Binding.Makes at h ⊢
  split at h
  · obtain ⟨q, rfl⟩ := h
    exact ⟨_, rfl⟩
  · exact h.elim
  · obtain ⟨q, us, rfl, hargs⟩ := h
    refine ⟨_, _, rfl, ?_⟩
    rw [Usage.rescopeAll_eq_map, List.forall₂_map_right_iff]
    refine hargs.imp fun a u ha => ?_
    cases a with
    | literal p =>
      obtain rfl : u = .literal p.text := ha
      exact rfl
    | path p =>
      obtain ⟨q, rfl⟩ := ha
      exact ⟨_, rfl⟩

theorem withoutDataFlow (h : Covers D bs us) : Covers D bs (us.filter (! Site.isDataFlow ·)) := by
  induction h with
  | nil => exact .nil
  | @bound b u _ _ hb _ ih =>
    have hflow : Site.isDataFlow u = false := by
      obtain ⟨_, _, _, rfl⟩ | ⟨_, _, _, _, rfl⟩ := hb.path_or_call <;> rfl
    rw [List.filter_cons, hflow]
    exact .bound hb ih
  | other hleaf hu _ ih =>
    rw [List.filter_cons]
    split
    · exact .other hleaf hu ih
    · exact ih
  | loop hchildren _ _ ih => exact .loop hchildren ih

/-- Closing a loop changes what names refer to, but not which usages there are. -/
theorem rescope (depth : Nat) (h : Covers D bs us) : Covers D bs (Usage.rescopeAll depth us) := by
  induction h with
  | nil => exact .nil
  | bound hb _ ih => exact .bound (makes_rescope hb) ih
  | other hleaf hu _ ih => exact .other (isLeaf_rescope hleaf) ((isBound_rescope ..).trans hu) ih
  | loop _ _ ihchildren ih => exact .loop ihchildren ih

theorem members (h : Covers D bs us) (hbs : ∀ b ∈ bs, ∀ u, b.Makes u → u.isBound D = true) :
    List.Forall₂ Binding.Makes bs ((Usage.membersOf us).filter (Usage.isBound D)) := by
  induction h with
  | nil => exact .nil
  | @bound b u bs us hb _ ih =>
    have hmembers : u.members = [u] := by
      obtain ⟨_, _, _, rfl⟩ | ⟨_, _, _, _, rfl⟩ := hb.path_or_call <;> rfl
    rw [Usage.membersOf, hmembers, List.singleton_append, List.filter_cons,
      if_pos (hbs b (List.mem_cons_self ..) u hb)]
    exact .cons hb (ih fun c hc => hbs c (List.mem_cons_of_mem b hc))
  | other hleaf hu _ ih =>
    rw [Usage.membersOf, Usage.members_of_isLeaf hleaf, List.singleton_append, List.filter_cons, hu]
    exact ih hbs
  | loop _ _ ihchildren ih =>
    rw [Usage.membersOf, Usage.members, List.filter_append]
    exact List.rel_append (ihchildren fun b hb => hbs b (List.mem_append_left _ hb))
      (ih fun b hb => hbs b (List.mem_append_right _ hb))

end Covers

namespace Site

/-! ### Attributes -/

theorem covers_attributeNameUsage? {tag property : String} {start : Nat} {name : List Char} :
    Covers D [] (site.attributeNameUsage? tag property start name).toList := by
  refine .of_others fun u hu => ?_
  obtain ⟨type, -, rfl⟩ := Option.map_eq_some_iff.1 (Option.mem_toList.1 hu)
  exact ⟨trivial, rfl⟩

theorem covers_attributeUsages (site : Site) (scope : Scope) (head : Head) (a : Attribute) :
    Covers D (a.bindings.filter Binding.isUsed) (site.attributeUsages scope head a).usages := by
  have hothers {us : List Usage} (h : ∀ u ∈ us, isAttributeName u = true ∨ isDataFlow u = true) :
      Covers D [] us := by
    refine .of_others fun u hu => ?_
    have hkind := h u hu
    cases u <;> simp_all [isAttributeName, isDataFlow, Usage.IsLeaf, Usage.isBound]
  obtain ⟨flow, husages, hflow, -⟩ := exists_attributeUsages site scope head a
  rw [husages, ← List.append_nil (a.bindings.filter _), ← List.nil_append (a.bindings.filter _)]
  have hname : Covers D [] (site.ownName? head a).toList :=
    hothers fun u hu => .inl (isAttributeName_of_mem_ownName? (Option.mem_toList.1 hu))
  exact (hname.append (.of_forall₂ (forall₂_bindingUsages ..))).append
    (hothers fun u hu => .inr (hflow u hu))

theorem covers_listenerUsages {tag : String} :
    Covers D [] (site.listenerUsages scope tag a).usages := by
  refine .of_others fun u hu => ?_
  unfold listenerUsages at hu
  split at hu
  · cases hu
  · simp only at hu
    split at hu
    · cases hu
    · split at hu <;> obtain rfl := List.mem_singleton.1 hu <;> exact ⟨trivial, rfl⟩

theorem covers_changedUsages : Covers D [] (site.changedUsages scope head a).usages := by
  simp only [changedUsages]
  split
  · split
    · split
      · exact covers_attributeNameUsage?
      · exact .nil
    · split <;> exact .nil
  · exact .nil

theorem covers_allAttributeUsages (site : Site) (scope : Scope) (head : Head) (a : Attribute) :
    Covers D (a.bindings.filter Binding.isUsed) (site.allAttributeUsages scope head a).usages := by
  have hown := covers_attributeUsages (D := D) site scope head a
  simp only [allAttributeUsages]
  split
  · rw [← List.append_nil (a.bindings.filter _), ← List.append_nil (a.bindings.filter _)]
    exact (hown.withoutDataFlow.append covers_listenerUsages).append covers_changedUsages
  · exact hown

theorem covers_ownUsages (site : Site) (scope : Scope) (head : Head) :
    Covers D ((head.attributes.flatMap Attribute.bindings).filter Binding.isUsed)
      (site.ownUsages scope head).usages := by
  unfold ownUsages attributesFound
  induction head.attributes with
  | nil => exact .nil
  | cons a as ih =>
    rw [List.flatMap_cons, List.filter_append]
    exact (covers_allAttributeUsages site scope head a).append ih

/-! ### Loops -/

theorem covers_callbackUsages {attr : String} {kind : CallbackKind} {bound : Option Usage}
    {items : Fragment.Phrase} (hrepeat : head.isRepeat = true)
    (hattr : attr ∈ ["as", "index-as", "sort", "filter"]) (hD : ∀ s ∈ head.declared, s ∈ D) :
    Covers D [] (site.callbackUsages scope head attr kind bound items).usages := by
  have hcall (function : Usage) :
      ∀ u ∈ (callbackUsage? kind function items).toList, u.IsLeaf ∧ u.isBound D = false := by
    intro u hu
    simp only [callbackUsage?, Option.mem_toList, Option.bind_eq_bind, Option.bind_eq_some_iff,
      Option.pure_def, Option.some.injEq] at hu
    obtain ⟨_, -, _, -, rfl⟩ := hu
    exact ⟨trivial, rfl⟩
  unfold callbackUsages
  split
  · exact .nil
  · split
    · exact .of_others (hcall _)
    · split
      · next function warnings hnamed =>
        refine .of_others fun u hu => ?_
        rcases List.mem_cons.1 hu with rfl | hu
        · unfold namedCallback at hnamed
          split at hnamed
          · cases hnamed
          · next value hvalue =>
            have hmem := hD _ (Markup.mem_declared hrepeat hattr hvalue)
            simp only at hnamed
            split at hnamed
            · cases hnamed
            · split at hnamed
              · cases hnamed
                exact ⟨trivial, by simp [Usage.isBound, hmem]⟩
              · cases hnamed
        · exact hcall _ u hu
      · exact .nil

theorem covers_variableUsage? {role : LoopRole} {bound : LoopVariable} {depth : Nat} {name : Option Piece}
    {standard : String} (hrepeat : head.isRepeat = true) (hD : ∀ s ∈ head.declared, s ∈ D)
    (h : site.loopVariable head role.attribute standard = (bound, name)) :
    Covers D [] (variableUsage? role bound depth name).toList := by
  refine .of_others fun u hu => ?_
  simp only [variableUsage?, Option.mem_toList, Option.bind_eq_bind, Option.bind_eq_some_iff,
    Option.pure_def, Option.some.injEq] at hu
  obtain ⟨p, rfl, -, -, rfl⟩ := hu
  obtain ⟨-, value, hvalue, rfl⟩ := loopVariable_eq_some h
  have hattr : role.attribute ∈ ["as", "index-as", "sort", "filter"] := by cases role <;> decide
  have hmem := hD _ (Markup.mem_declared hrepeat hattr hvalue)
  exact ⟨trivial, by simp [Usage.isBound, hmem]⟩

theorem covers_observedUsages {item : String} :
    Covers D [] (site.observedUsages scope head item).usages := by
  refine .of_others fun u hu => ?_
  unfold observedUsages at hu
  split at hu
  · cases hu
  · split at hu
    · cases hu
    · obtain ⟨_, hr, rfl⟩ := List.mem_map.1 hu
      obtain ⟨entry, -, rfl⟩ := List.mem_map.1 hr
      obtain ⟨q, -, h⟩ := looked_pathUsage site scope ⟨item ++ "." ++ entry.text, entry.span⟩ .observed
      rw [h]
      exact ⟨trivial, rfl⟩

theorem covers_openLoop {opening : Opening} (hrepeat : head.isRepeat = true)
    (hD : ∀ s ∈ head.declared, s ∈ D)
    (h : site.openLoop scope head (site.attributesFound scope head) = .ok opening) :
    Covers D [] opening.before.usages ∧ Covers D [] opening.inside.usages := by
  obtain ⟨-, ⟨phrase, -, hbefore⟩, itemName, indexName, hitem, hindex, hinside⟩ := openLoop_eq_ok h
  rw [hbefore, hinside]
  constructor
  · exact (covers_callbackUsages hrepeat (by decide) hD).append
      (covers_callbackUsages hrepeat (by decide) hD)
  · have hitem : site.loopVariable head LoopRole.item.attribute defaultItem = _ := hitem
    have hindex : site.loopVariable head LoopRole.index.attribute defaultIndex = _ := hindex
    exact ((covers_variableUsage? hrepeat hD hitem).append
      (covers_variableUsage? hrepeat hD hindex)).append covers_observedUsages

theorem covers_closeLoop {opening : Opening} {found : Found} (hrepeat : head.isRepeat = true)
    (hD : ∀ s ∈ head.declared, s ∈ D)
    (h : site.openLoop scope head (site.attributesFound scope head) = .ok opening)
    (hfound : Covers D bs found.usages) : Covers D bs (closeLoop scope head opening found).usages := by
  obtain ⟨hbefore, hopening⟩ := covers_openLoop hrepeat hD h
  have hinside : Covers D bs (opening.inside ++ found).usages := hopening.append hfound
  rw [← List.nil_append bs]
  refine hbefore.append ?_
  rw [← List.append_nil bs]
  refine .loop ?_ .nil
  split
  · exact hinside.rescope _
  · exact hinside

/-! ### The walk -/

mutual

theorem covers_walkNode : ∀ {n : Node} {scope : Scope} {found : Found},
    (∀ s ∈ declaredIn [site.visitedNode scope n], s ∈ D) → site.walkNode scope n = .ok found →
      Covers D ((bindingsOf [site.visitedNode scope n]).filter Binding.isUsed) found.usages
  | .comment _, scope, found, _, h => by
    cases h
    exact .nil
  | .text piece, scope, found, _, h => by
    cases h
    rw [visitedNode, Markup.bindingsOf_text]
    exact .of_forall₂ (forall₂_bindingUsages ..)
  | .element head children, scope, found, hD, h => by
    rw [visitedNode, Markup.declaredIn_element] at hD
    rw [visitedNode, Markup.bindingsOf_element, List.filter_append]
    have hown := covers_ownUsages (D := D) site scope head
    have hdeclared : ∀ s ∈ head.declared, s ∈ D := fun s hs => hD s (List.mem_append_left _ hs)
    replace hD := fun s hs => hD s (List.mem_append_right _ hs)
    simp only [walkNode, bind, Except.bind, pure, Except.pure] at h
    split at h
    · cases h
    · next attributes hattributes =>
      obtain rfl := eq_of_attributesOf hattributes
      -- the content of a raw text element is neither walked nor visited
      cases hraw : site.options.isRawText head.tag with
      | true =>
        simp only [hraw, if_true] at h ⊢
        cases hrepeat : head.isRepeat with
        | false =>
          rw [hrepeat] at h
          obtain rfl := Except.ok.inj h
          exact hown.append .nil
        | true =>
          simp only [hrepeat, if_true] at h
          split at h
          · obtain rfl := Except.ok.inj h
            exact hown.append .nil
          · next opening hopening =>
            obtain rfl := Except.ok.inj h
            exact hown.append (covers_closeLoop hrepeat hdeclared hopening .nil)
      | false =>
        simp only [hraw, Bool.false_eq_true, if_false] at h hD ⊢
        cases hrepeat : head.isRepeat with
        | false =>
          simp only [hrepeat, Bool.false_eq_true, if_false] at h hD ⊢
          split at h
          · cases h
          · next content hcontent =>
            obtain rfl := Except.ok.inj h
            exact hown.append (covers_walk hD hcontent)
        | true =>
          simp only [hrepeat, if_true] at h hD ⊢
          cases henters : enters scope head with
          | false =>
            obtain ⟨warnings, hopening⟩ := openLoop_of_not_enters site henters
            rw [hopening] at h
            obtain rfl := Except.ok.inj h
            exact hown.append .nil
          | true =>
            obtain ⟨opening, hframe, hopening⟩ := openLoop_of_enters site henters
            simp only [henters, if_true, ← hframe, hopening] at h hD ⊢
            split at h
            · cases h
            · next content hcontent =>
              obtain rfl := Except.ok.inj h
              exact hown.append (covers_closeLoop hrepeat hdeclared hopening (covers_walk hD hcontent))

/-- A walk finds the usages of all bindings that are looked at. -/
theorem covers_walk : ∀ {ns : List Node} {scope : Scope} {found : Found},
    (∀ s ∈ declaredIn (site.visited scope ns), s ∈ D) → site.walk scope ns = .ok found →
      Covers D ((bindingsOf (site.visited scope ns)).filter Binding.isUsed) found.usages
  | [], scope, found, _, h => by
    cases h
    exact .nil
  | n :: ns, scope, found, hD, h => by
    simp only [walk, bind, Except.bind, pure, Except.pure] at h
    split at h
    · cases h
    · next first hfirst =>
      split at h
      · cases h
      · next rest hrest =>
        obtain rfl := Except.ok.inj h
        rw [visited, Markup.declaredIn_cons] at hD
        rw [visited, Markup.bindingsOf_cons, List.filter_append]
        exact (covers_walkNode (fun s hs => hD s (List.mem_append_left _ hs)) hfirst).append
          (covers_walk (fun s hs => hD s (List.mem_append_right _ hs)) hrest)

end

end Site

end Relabel
