import Relabel.Proofs.Extraction.Origin
import Relabel.Proofs.Extraction.Walked

/-!
# A walk finds usages with an origin

The names of a loop's variables and the entries of its `observe` list are seen from inside the loop,
its list and its functions from outside. Closing the loop takes what was found inside to the scope
outside: its unnamed item becomes a base, which is what `Usage.Origin.rescope` and `Usage.Origin.close` say. The
induction over the walk is `Walked.comesFrom`.
-/

namespace Relabel.Site
open Text
open Markup (Node Head Attribute Document IsText NamedBy preorderOf)
variable {ns nodes : List Node} {u : Usage} {v p : Piece} {scope : Scope} {site : Site} {head : Head}
  {children : List Node} {a : Attribute} {found : List (Attribute × Found)} {opening : Opening}
  {role : LoopRole} {bound : LoopVariable}

/-! ### Loops -/

theorem comesFrom_callbackUsage? {kind : CallbackKind} {function : Usage} {items : Fragment.Phrase}
    (h : function.ComesFrom ns scope) :
    ∀ u ∈ callbackUsage? kind function items, u.ComesFrom ns scope := by
  intro u hu
  simp only [callbackUsage?, Option.mem_def, Option.bind_eq_bind, Option.bind_eq_some_iff,
    Option.pure_def, Option.some.injEq] at hu
  obtain ⟨span, hspan, phrase, hphrase, rfl⟩ := hu
  obtain ⟨p, hp, rfl⟩ := h.self.occurs hspan hphrase
  exact Usage.holds_leaf trivial (.callback hp)

theorem comesFrom_namedCallback {attr : String} {function : Usage}
    (he : .element head children ∈ preorderOf ns) (hrepeat : head.isRepeat = true)
    (hattr : attr ∈ ["sort", "filter"]) (h : (site.namedCallback scope head attr).1 = some function) :
    function.ComesFrom ns scope := by
  unfold namedCallback at h
  split at h
  · cases h
  · next value hvalue =>
    have hp : NamedBy ns attr (trimmed value) := ⟨head, children, value, he, hrepeat, hvalue, rfl⟩
    simp only at h
    split at h
    · cases h
    · split at h
      · cases h
        exact Usage.holds_leaf trivial (.callbackName hp hattr)
      · cases h

/-- The functions of a loop. -/
theorem comesFrom_callbackUsages {attr : String} {kind : CallbackKind} {bound : Option Usage}
    {items : Fragment.Phrase} (he : .element head children ∈ preorderOf ns)
    (hrepeat : head.isRepeat = true) (hattr : attr ∈ ["sort", "filter"])
    (hbound : ∀ u ∈ bound, u.ComesFrom ns scope) :
    (site.callbackUsages scope head attr kind bound items).ComesFrom ns scope := by
  unfold callbackUsages
  split
  · exact Found.comesFrom_nil _
  · split
    · next function =>
      exact Found.comesFrom_toList (comesFrom_callbackUsage? (hbound function rfl)) _
    · split
      · next function warnings hnamed =>
        have hfst : (site.namedCallback scope head attr).1 = some function := by rw [hnamed]
        have hfunction : function.ComesFrom ns scope :=
          comesFrom_namedCallback he hrepeat hattr hfst
        intro u hu
        rcases List.mem_cons.1 hu with rfl | hu
        · exact hfunction
        · exact comesFrom_callbackUsage? hfunction u (Option.mem_toList.1 hu)
      · exact Found.comesFrom_nil _

theorem getLast?_enter (scope : Scope) (frame : Frame) :
    (scope.enter frame).frames.reverse.getLast? = some frame := by
  rw [List.getLast?_reverse]
  rfl

theorem comesFrom_variableUsage? {frame : Frame} {standard : String} {name : Option Piece}
    (he : .element head children ∈ preorderOf ns) (hrepeat : head.isRepeat = true)
    (h : site.loopVariable head role.attribute standard = (frame.variable role, name)) :
    ∀ u ∈ variableUsage? role (frame.variable role) (scope.enter frame).depth name,
      u.ComesFrom ns (scope.enter frame) := by
  intro u hu
  simp only [variableUsage?, Option.mem_def, Option.bind_eq_bind, Option.bind_eq_some_iff,
    Option.guard_eq_some', Option.pure_def, Option.some.injEq] at hu
  obtain ⟨p, rfl, _, hrenameable, rfl⟩ := hu
  obtain ⟨hbound, value, hvalue, rfl⟩ := loopVariable_eq_some h
  rw [hbound] at hrenameable
  have hvariable : frame.variable role = ⟨(trimmed value).text, false, true⟩ :=
    hbound.trans (congrArg _ hrenameable)
  have hdepth : (scope.enter frame).depth = (scope.enter frame).frames.reverse.length :=
    List.length_reverse.symm
  rw [hvariable, hdepth]
  exact Usage.holds_leaf trivial
    (.variableName ⟨head, children, value, he, hrepeat, hvalue, rfl⟩
      (getLast?_enter scope frame) hvariable)

/-- The entries of an `observe` list. -/
theorem comesFrom_observedUsages {frame : Frame} (he : .element head children ∈ preorderOf ns)
    (hrepeat : head.isRepeat = true) :
    (site.observedUsages (scope.enter frame) head frame.item.name).ComesFrom ns (scope.enter frame) := by
  unfold observedUsages
  split
  · exact Found.comesFrom_nil _
  · next value hvalue =>
    split
    · exact Found.comesFrom_nil _
    · next hfind =>
      have hnone : Binding.findAll value.text value.span.start = [] := by
        simpa [Binding.find?] using hfind
      intro u hu
      obtain ⟨_, hr, rfl⟩ := List.mem_map.1 hu
      obtain ⟨entry, hentry, rfl⟩ := List.mem_map.1 hr
      obtain ⟨q, hq, h⟩ := looked_pathUsage site (scope.enter frame)
        ⟨frame.item.name ++ "." ++ entry.text, entry.span⟩ .observed
      rw [h]
      exact Usage.holds_leaf trivial (.observed
        ⟨head, children, value, he, hrepeat, hvalue, hnone, hentry⟩
        (getLast?_enter scope frame) (settled_of_looked hq))

/-! ### Opening and closing -/

theorem name_loopVariable (site : Site) (head : Head) (role : LoopRole) :
    (site.loopVariable head role.attribute role.standard).1.name = role.nameIn head := by
  unfold loopVariable LoopRole.nameIn
  cases (head.attribute? role.attribute).bind (·.value) with
  | none => rfl
  | some v =>
    dsimp only
    cases Binding.find? v.text v.span.start with
    | some b => rfl
    | none =>
      dsimp only
      split <;> rfl

theorem name_variable_of_openLoop (h : site.openLoop scope head found = .ok opening) (role : LoopRole) :
    (opening.frame.variable role).name = role.nameIn head := by
  obtain ⟨-, -, _, _, hitem, hindex, -⟩ := openLoop_eq_ok h
  rw [← name_loopVariable site]
  cases role with
  | item => exact (congrArg (·.1.name) hitem).symm
  | index => exact (congrArg (·.1.name) hindex).symm

theorem comesFrom_boundUsage? {key : String} (hfound : ∀ r ∈ found, r.2.ComesFrom ns scope) :
    ∀ u ∈ boundUsage? found key, u.ComesFrom ns scope := by
  intro u hu
  simp only [boundUsage?, Option.mem_def, Option.bind_eq_bind, Option.bind_eq_some_iff] at hu
  obtain ⟨r, hr, hhead⟩ := hu
  have hmem := List.mem_reverse.1 (List.mem_of_find?_eq_some hr)
  exact hfound r hmem u (List.mem_filter.1 (List.mem_of_head? hhead)).1

/-- What stands before a loop and its list are seen from outside, what its attributes put inside from
inside. -/
theorem comesFrom_openLoop (he : .element head children ∈ preorderOf ns) (hrepeat : head.isRepeat = true)
    (hfound : ∀ r ∈ found, r.2.ComesFrom ns scope) (h : site.openLoop scope head found = .ok opening) :
    opening.items.ComesFrom ns scope ∧ opening.before.ComesFrom ns scope ∧
      opening.inside.ComesFrom ns (scope.enter opening.frame) := by
  obtain ⟨hitems, ⟨phrase, -, hbefore⟩, itemName, indexName, hitem, hindex, hinside⟩ := openLoop_eq_ok h
  refine ⟨comesFrom_boundUsage? hfound _ hitems, ?_, ?_⟩
  · rw [hbefore]
    exact (comesFrom_callbackUsages he hrepeat (by simp) (comesFrom_boundUsage? hfound)).append
      (comesFrom_callbackUsages he hrepeat (by simp) (comesFrom_boundUsage? hfound))
  · rw [hinside]
    refine Found.ComesFrom.append (fun u hu => ?_) (comesFrom_observedUsages he hrepeat)
    have hitem : site.loopVariable head LoopRole.item.attribute defaultItem =
        (opening.frame.variable .item, itemName) := hitem
    have hindex : site.loopVariable head LoopRole.index.attribute defaultIndex =
        (opening.frame.variable .index, indexName) := hindex
    rcases List.mem_append.1 hu with hu | hu
    · exact comesFrom_variableUsage? he hrepeat hitem u (Option.mem_toList.1 hu)
    · exact comesFrom_variableUsage? he hrepeat hindex u (Option.mem_toList.1 hu)

/-- What stands inside a loop, after the loop is closed. -/
theorem origin_of_close {frame : Frame} {us : List Usage} {gs : List Frame}
    (hus : ∀ u ∈ us, u.ComesFrom ns (scope.enter frame))
    (h : Within (if frame.item.isDefault then Usage.rescopeAll (scope.enter frame).depth us else us) gs u) :
    Usage.Origin ns scope.depth (scope.frames.reverse ++ [frame] ++ gs) u := by
  have hframes : (scope.enter frame).frames.reverse = scope.frames.reverse ++ [frame] :=
    List.reverse_cons
  split at h
  · obtain ⟨w, hw, rfl⟩ := Usage.exists_of_within_rescopeAll h
    have horigin := Usage.holds_of_within hus hw
    rw [hframes] at horigin
    exact horigin.rescope
  · next hdefault =>
    have horigin := Usage.holds_of_within hus h
    have hdepth : scope.depth = scope.frames.reverse.length := List.length_reverse.symm
    have hinner : (scope.enter frame).depth = scope.frames.reverse.length + 1 := by
      rw [← hdepth]
      rfl
    rw [hframes, List.append_assoc, hinner] at horigin
    rw [List.append_assoc, hdepth]
    exact horigin.close (Bool.eq_false_iff.2 hdefault)

theorem comesFrom_closeLoop {content : Found} (he : .element head children ∈ preorderOf ns)
    (hrepeat : head.isRepeat = true) (hfound : ∀ r ∈ found, r.2.ComesFrom ns scope)
    (h : site.openLoop scope head found = .ok opening)
    (hcontent : content.ComesFrom ns (scope.enter opening.frame)) :
    (closeLoop scope head opening content).ComesFrom ns scope := by
  obtain ⟨hitems, hbefore, hinside⟩ := comesFrom_openLoop he hrepeat hfound h
  refine hbefore.append fun u hu => ?_
  obtain rfl := List.mem_singleton.1 hu
  refine Usage.holds_loop (.loop he hrepeat (name_variable_of_openLoop h)) hitems fun c hc gs v hv => ?_
  exact origin_of_close (hinside.append hcontent) (Usage.within_iff.2 ⟨c, hc, hv⟩)

/-! ### The walk -/

theorem comesFrom_attributesFound (he : .element head children ∈ preorderOf ns) :
    ∀ r ∈ site.attributesFound scope head, r.2.ComesFrom ns scope := by
  rw [attributesFound, List.forall_mem_map]
  intro a ha
  dsimp only
  exact comesFrom_allAttributeUsages he ha

/-- Everything that a walk finds has an origin. -/
theorem Walked.comesFrom {found : Found} (h : site.Walked scope nodes found)
    (hnodes : preorderOf nodes ⊆ preorderOf ns) : found.ComesFrom ns scope := by
  have hcontent {head : Head} {children nodes : List Node}
      (he : .element head children ∈ preorderOf ns) (hnodes : nodes = [] ∨ nodes = children) :
      preorderOf nodes ⊆ preorderOf ns := by
    rcases hnodes with rfl | rfl
    · exact List.nil_subset _
    · exact fun m hm => Markup.mem_preorderOf_of_child he hm
  induction h with
  | nil => exact Found.comesFrom_nil _
  | @cons scope n nodes first rest _ _ ihn ihnodes =>
    refine (ihn fun m hm => hnodes ?_).append (ihnodes fun m hm => hnodes (List.mem_append_right _ hm))
    exact List.mem_append_left _ (by simpa [preorderOf] using hm)
  | comment => exact Found.comesFrom_nil _
  | text => exact comesFrom_bindingUsages (.inl (hnodes (List.mem_append_left _ (Node.mem_preorder_self _))))
  | element hchildren _ ih =>
    have he := hnodes (List.mem_append_left _ (Node.mem_preorder_self _))
    refine Found.ComesFrom.append ?_ (ih (hcontent he hchildren))
    exact Found.comesFrom_concat (List.forall_mem_map.2 (comesFrom_attributesFound he))
  | @loop scope head _ _ _ _ hrepeat hopening hchildren _ ih =>
    have he := hnodes (List.mem_append_left _ (Node.mem_preorder_self _))
    have hown : ∀ r ∈ site.attributesFound scope head, r.2.ComesFrom ns scope :=
      comesFrom_attributesFound he
    refine (Found.comesFrom_concat (List.forall_mem_map.2 hown)).append ?_
    exact comesFrom_closeLoop he hrepeat hown hopening (ih (hcontent he hchildren))

/-- Everything in a template of an extraction has an origin in the document, with all loops closed. -/
theorem origin_of_within {document : Document} {d : DocumentUsages} {t : TemplateUsages}
    {fs : List Frame} (h : site.Extracts document d) (ht : t ∈ d.templates) (hu : Within t.usages fs u) :
    Usage.Origin document.children 0 fs u := by
  obtain ⟨scope, content, found, hcontent, hframes, hwalked, husages⟩ := walked_of_extracts h ht
  have horigin := Usage.holds_of_within (hwalked.comesFrom hcontent.subset) (husages ▸ hu)
  simpa [Scope.depth, hframes] using horigin

end Relabel.Site
