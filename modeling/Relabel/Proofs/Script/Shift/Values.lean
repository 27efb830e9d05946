import Relabel.Proofs.Script.Shift.Steps
import Relabel.Script.Operation

/-!
# Values on text that stands further back

Every rule for values reads the same from text that stands further back, if the rules it asks do.
-/

namespace Relabel.Script
open Reading

namespace IsShift
variable {k : Move} {t t' : Tree} {ts ts' : List Tree}

instance label [h : IsShift k t t'] : IsShift k t.label t'.label := by
  rw [h.eq]
  exact ⟨Tree.label_shifted k t⟩

instance isPrivateName {l l' : Label} [h : IsShift k l l'] : IsShift k l.isPrivateName l'.isPrivateName := by
  rw [h.eq_of_still]
  infer_instance

instance children [h : IsShift k t t'] : IsShift k t.children t'.children := by
  rw [h.eq]
  exact ⟨Tree.children_shifted k t⟩

instance takesRest [h : IsShift k t t'] : IsShift k (takesRest t) (takesRest t') := by
  rw [h.eq]
  exact ⟨Tree.takesRest_shifted k t⟩

instance restIsLast {trailing : Bool} [h : IsShift k ts ts'] :
    IsShift k (restIsLast trailing ts) (restIsLast trailing ts') := by
  rw [h.eq]
  exact ⟨Tree.restIsLast_shiftedAll k trailing ts⟩

instance isSimpleTarget [h : IsShift k t t'] : IsShift k t.isSimpleTarget t'.isSimpleTarget := by
  rw [h.eq]
  exact ⟨Tree.isSimpleTarget_shifted k t⟩

instance isBinding [h : IsShift k t t'] : IsShift k t.isBinding t'.isBinding := by
  rw [h.eq]
  exact ⟨Tree.isBinding_shifted k t⟩

section
variable {p : Tree → Bool} [g : ∀ t : Tree, IsShift k (p t) (p (Script.shifted k t))]

instance all [h : IsShift k ts ts'] : IsShift k (ts.all p) (ts'.all p) := by
  have hcomp : p ∘ Tree.shifted k = p := funext fun t => (g t).eq_of_still
  obtain rfl := h.eq
  exact ⟨by rw [show Script.shifted k ts = _ from Tree.shiftedAll_eq_map k ts, List.all_map, hcomp]; rfl⟩

instance any [h : IsShift k ts ts'] : IsShift k (ts.any p) (ts'.any p) := by
  have hcomp : p ∘ Tree.shifted k = p := funext fun t => (g t).eq_of_still
  obtain rfl := h.eq
  exact ⟨by rw [show Script.shifted k ts = _ from Tree.shiftedAll_eq_map k ts, List.any_map, hcomp]; rfl⟩

instance headAll [h : IsShift k ts ts'] : IsShift k (ts.head?.all p) (ts'.head?.all p) := by
  obtain rfl := h.eq
  cases ts with
  | nil => exact ⟨rfl⟩
  | cons t ts => exact g t

end

theorem admits_eq (m : Modifiers) (head : Tree) : m.admits head =
    if m.kind = "get" then head.children.isEmpty
    else if m.kind = "set" then head.children.length = 1 && !head.children.any Script.takesRest
    else true := by
  rw [Modifiers.admits.eq_def]
  split
  · simp_all
  · simp_all
  · next hchildren =>
    rcases hlist : head.children with _ | ⟨item, _ | ⟨_, _⟩⟩ <;> simp_all
  · simp_all

instance admits {m : Modifiers} [h : IsShift k t t'] : IsShift k (m.admits t) (m.admits t') := by
  have hempty := (inferInstance : IsShift k t.children.isEmpty t'.children.isEmpty).eq_of_still
  have hany :=
    (inferInstance : IsShift k (t.children.any Script.takesRest) (t'.children.any Script.takesRest)).eq_of_still
  have hlength : t'.children.length = t.children.length := by
    rw [h.eq, show Script.shifted k t = t.shifted k from rfl, Tree.children_shifted, Tree.shiftedAll_eq_map,
      List.length_map]
  refine ⟨?_⟩
  rw [admits_eq, admits_eq, hempty, hany, hlength]
  rfl

instance mayBeNamed {isStatic isMethod : Bool} {m : Modifiers} [h : IsShift k t t'] :
    IsShift k (mayBeNamed isStatic isMethod m t) (mayBeNamed isStatic isMethod m t') := by
  have hname : memberName? (t.shifted k) = memberName? t := by
    obtain ⟨label, span, children⟩ := t
    cases label with
    | literalName =>
      match children with
      | [] => rfl
      | [.node label span children] => cases label <;> rfl
      | .node label span children :: _ :: _ => cases label <;> rfl
    | _ => rfl
  have hlabel := Tree.label_shifted k t
  obtain rfl := h.eq
  refine ⟨?_⟩
  show Script.mayBeNamed isStatic isMethod m (t.shifted k) = Script.mayBeNamed isStatic isMethod m t
  rw [Script.mayBeNamed, Script.mayBeNamed, hname, hlabel]

section
variable {tss tss' : List (List Tree)}

instance nilList : IsShift k ([] : List (List Tree)) [] := ⟨rfl⟩

instance consList [h : IsShift k ts ts'] [h' : IsShift k tss tss'] : IsShift k (ts :: tss) (ts' :: tss') := by
  rw [h.eq, h'.eq]
  exact ⟨rfl⟩

instance reverseList [h : IsShift k tss tss'] : IsShift k tss.reverse tss'.reverse := by
  rw [h.eq]
  exact ⟨(List.map_reverse ..).symm⟩

instance flattenList [h : IsShift k tss tss'] : IsShift k tss.flatten tss'.flatten := by
  obtain rfl := h.eq
  induction tss with
  | nil => exact ⟨rfl⟩
  | cons ts tss ih =>
    exact (inferInstance : IsShift k (ts ++ tss.flatten) (Script.shifted k ts ++ (Script.shifted k tss).flatten))

end

instance hasLength {n : Nat} [h : IsShift k ts ts'] : IsShift k (decide (ts.length = n)) (decide (ts'.length = n)) := by
  rw [h.eq, show Script.shifted k ts = _ from Tree.shiftedAll_eq_map k ts, List.length_map]
  infer_instance

instance accessed {b b' : Bool} [h : IsShift k t t'] [h' : IsShift k b b'] :
    IsShift k (Accessed.mk t b) (Accessed.mk t' b') := by
  rw [h.eq, h'.eq_of_still]
  exact ⟨rfl⟩

instance tree {a a' : Accessed} [h : IsShift k a a'] : IsShift k a.tree a'.tree := by
  obtain rfl := h.eq
  exact ⟨rfl⟩

instance isChained {a a' : Accessed} [h : IsShift k a a'] : IsShift k a.isChained a'.isChained := by
  obtain rfl := h.eq
  exact ⟨rfl⟩

instance mixes {operator : String} {isLeft : Bool} [h : IsShift k t t'] :
    IsShift k (mixes operator isLeft t) (mixes operator isLeft t') := by
  have hlabel : t'.label = t.label := (IsShift.label (h := h)).eq_of_still
  rw [Script.mixes, Script.mixes, hlabel]
  infer_instance

end IsShift

variable {k : Move} {r r' : Rules} [h : ∀ goal ctx, Shifts k (r goal ctx) (r' goal ctx)] {ctx : Context}
  {start start' : Nat} [s : IsShift k start start']

/-! ### Functions -/

instance shifts_bindingElement : Shifts k (bindingElement r ctx) (bindingElement r' ctx) := by
  unfold bindingElement
  infer_instance

instance shifts_parameter : Shifts k (parameter r ctx) (parameter r' ctx) := by
  unfold parameter
  infer_instance

instance shifts_parameters : Shifts k (parameters r ctx) (parameters r' ctx) := by
  unfold parameters
  refine .bind (g := fun start => .bind_still (g := fun _ => .bind (g := fun ⟨items, trailing⟩ => ?_)))
  infer_instance

instance shifts_braced {label : Label} : Shifts k (braced r ctx label) (braced r' ctx label) := by
  unfold braced
  infer_instance

instance shifts_functionParts {isAsync isGenerator : Bool} :
    Shifts k (functionParts r isAsync isGenerator) (functionParts r' isAsync isGenerator) := by
  unfold functionParts
  infer_instance

instance steady_beginsFunction : Shifts.Steady beginsFunction :=
  ⟨fun h => by rw [beginsFunction, beginsFunction, h.token, h.newline]⟩

instance shifts_functionFrom {isAsync isNamed : Bool} {outer : Option Context} :
    Shifts k (functionFrom r start isAsync isNamed outer) (functionFrom r' start' isAsync isNamed outer) := by
  unfold functionFrom
  infer_instance

instance shifts_arrowFrom {isAsync : Bool} {head head' : List Tree} [hs : IsShift k head head'] :
    Shifts k (arrowFrom r ctx start isAsync head) (arrowFrom r' ctx start' isAsync head') := by
  unfold arrowFrom
  infer_instance

instance shifts_propertyName : Shifts k (propertyName r ctx) (propertyName r' ctx) := by
  refine .bind (g := fun start => .bind_still (g := fun t => ?_))
  cases t <;> infer_instance

instance steady_named : Shifts.Steady fun c => beginsProperty c.token || c.token == .stop :=
  ⟨fun h => by rw [h.token]⟩

instance steady_asyncNamed : Shifts.Steady fun c => !c.newline && (beginsProperty c.token || c.token == .mark "*") :=
  ⟨fun h => by rw [h.token, h.newline]⟩

instance shifts_modifiers : Shifts k modifiers modifiers := by
  unfold modifiers
  extract_lets named asyncNamed
  have hnamed : Shifts.Steady named := steady_named
  have hasync : Shifts.Steady asyncNamed := steady_asyncNamed
  infer_instance

instance shifts_methodFrom {m : Modifiers} {name name' : Tree} [hn : IsShift k name name'] :
    Shifts k (methodFrom r start m name) (methodFrom r' start' m name') := by
  unfold methodFrom
  infer_instance

/-! ### Collections -/

instance shifts_spreadable : Shifts k (spreadable r ctx) (spreadable r' ctx) := by
  unfold spreadable
  infer_instance

instance shifts_arrayItem : Shifts k (arrayItem r ctx) (arrayItem r' ctx) := by
  unfold arrayItem
  infer_instance

instance shifts_array : Shifts k (array r ctx) (array r' ctx) := by
  unfold array
  infer_instance

instance shifts_property : Shifts k (property r ctx) (property r' ctx) := by
  refine .bind (g := fun start => .bind_still (g := fun m => .bind (g := fun name => .bind_still (g := fun b => ?_))))
  rw [show (shifted k name).label = name.label from Tree.label_shifted k name]
  cases name.label <;> infer_instance

instance shifts_objectItem : Shifts k (objectItem r ctx) (objectItem r' ctx) := by
  unfold objectItem
  infer_instance

instance shifts_object : Shifts k (object r ctx) (object r' ctx) := by
  unfold object
  infer_instance

instance shifts_template {isTagged : Bool} : Shifts k (template r ctx isTagged) (template r' ctx isTagged) := by
  refine .bind (g := fun start => .bind_pair (h := .iterate (r := ?_)) (g := fun items _ => inferInstance))
  rintro ⟨items, done⟩
  refine .ite (q := .bind_still (g := fun t => ?_))
  cases t <;> infer_instance

/-- A pattern is spelled by what stands further back as well. -/
theorem shifts_asPattern {place : PatternPlace} {t : Tree} {f f' : Tree → Reading Tree}
    (g : ∀ p, Shifts k (f p) (f' (shifted k p))) :
    Shifts k (match t.asPattern place with | some p => f p | none => failure)
      (match (shifted k t).asPattern place with | some p => f' p | none => failure) := by
  rw [show (shifted k t).asPattern place = _ from Tree.asPattern_shifted k place t]
  cases t.asPattern place with
  | none => exact .failure
  | some p => exact g p

instance shifts_binding : Shifts k (binding r ctx) (binding r' ctx) := by
  have hdeclared (t : Tree) := @shifts_asPattern k .plain t (fun p => do guard p.isBinding; return p)
    (fun p => do guard p.isBinding; return p) inferInstance
  unfold binding
  infer_instance

/-! ### Classes -/

instance shifts_fieldFrom {name name' : Tree} [hn : IsShift k name name'] :
    Shifts k (fieldFrom r start name) (fieldFrom r' start' name') := by
  unfold fieldFrom
  infer_instance

instance shifts_decorator : Shifts k (decorator r ctx) (decorator r' ctx) := by
  unfold decorator
  infer_instance

instance shifts_decorators : Shifts k (decorators r ctx) (decorators r' ctx) := by
  unfold decorators
  infer_instance

instance steady_beginsProperty : Shifts.Steady fun c => !c.newline && beginsProperty c.token :=
  ⟨fun h => by rw [h.token, h.newline]⟩

instance shifts_member {isStatic : Bool} :
    Shifts k (member r ctx start isStatic) (member r' ctx start' isStatic) := by
  unfold member
  infer_instance

instance steady_endsMemberName : Shifts.Steady fun c => !endsMemberName c.token :=
  ⟨fun h => by rw [h.token]⟩

instance shifts_memberItem : Shifts k (memberItem r ctx) (memberItem r' ctx) := by
  unfold memberItem
  infer_instance

instance shifts_classFrom {isNamed : Bool} {before before' : List Tree} [hb : IsShift k before before'] :
    Shifts k (classFrom r ctx start isNamed before) (classFrom r' ctx start' isNamed before') := by
  refine .bind_still (g := fun _ => .bind_still (g := fun a => .bind_still (g := fun b => ?_)))
  extract_lets anonymous named named'
  have hnamed (name : List Tree) : Shifts k (named name) (named' (shifted k name)) := by
    refine .bind_still (g := fun b => ?_)
    extract_lets body body'
    have hbody (heritage : List Tree) : Shifts k (body heritage) (body' (shifted k heritage)) :=
      .bind_still (g := fun _ => .bind (g := fun members => inferInstance))
    infer_instance
  infer_instance

/-! ### What follows a value -/

instance shifts_arguments : Shifts k (arguments r ctx) (arguments r' ctx) := by
  unfold arguments
  infer_instance

instance shifts_parenthesized : Shifts k (parenthesized r ctx) (parenthesized r' ctx) := by
  refine .bind (g := fun start => .bind_still (g := fun _ => .bind (g := fun inside =>
    .bind_pair (g := fun items trailing => .ite (q := ?_)))))
  have hstop (ts : List Tree) : IsShift k ((ts.getLast?.map (·.span.stop)).getD inside)
      (((shifted k ts).getLast?.map (·.span.stop)).getD (shifted k inside)) := by
    rw [show shifted k ts = _ from Tree.shiftedAll_eq_map k ts, List.getLast?_map]
    rcases ts.getLast? with _ | t
    · exact .shifted inside
    · exact (inferInstance : IsShift k t.span.stop (shifted k t).span.stop)
  have hsequence (ts : List Tree) : Shifts k
      (node start .paren [.node .sequence ⟨inside, (ts.getLast?.map (·.span.stop)).getD inside⟩ ts])
      (node (shifted k start) .paren [.node .sequence ⟨shifted k inside,
        ((shifted k ts).getLast?.map (·.span.stop)).getD (shifted k inside)⟩ (shifted k ts)]) := inferInstance
  match items with
  | [] => exact hsequence []
  | [t] => exact (inferInstance : Shifts k (node start .paren [t]) (node (shifted k start) .paren [shifted k t]))
  | t :: u :: us => exact hsequence (t :: u :: us)

instance shifts_creation : Shifts k (creation r ctx) (creation r' ctx) := by
  refine .bind (g := fun start => .bind_still (g := fun _ => .bind_still (g := fun isMeta => .ite (q := ?_))))
  infer_instance

instance shifts_importing : Shifts k (importing r ctx) (importing r' ctx) := by
  refine .bind (g := fun start => .bind_still (g := fun _ => ?_))
  extract_lets call call'
  have hcall (phase : String) : Shifts k (call phase) (call' phase) :=
    .bind_still (g := fun _ => .bind_pair (g := fun args _ => inferInstance))
  infer_instance

instance shifts_superior : Shifts k superior superior := by
  unfold superior
  infer_instance

instance shifts_wordValue {word : String} : Shifts k (wordValue r ctx word) (wordValue r' ctx word) := by
  unfold wordValue
  refine .bind (g := fun start => ?_)
  split <;> infer_instance

instance shifts_markValue {mark : String} : Shifts k (markValue r ctx mark) (markValue r' ctx mark) := by
  refine .bind (g := fun start => .ite (q := .ite (q := .ite (q := .ite (q := .bind_still (g := fun _ =>
    .bind_still (g := fun t => ?_)))))))
  cases t <;> infer_instance

instance shifts_value : Shifts k (value r ctx) (value r' ctx) := by
  refine .bind_still (g := fun t => ?_)
  cases t with
  | name word escaped => cases escaped <;> infer_instance
  | _ => infer_instance

instance shifts_propertyOf {object object' : Tree} {isOptional : Bool} [ho : IsShift k object object'] :
    Shifts k (propertyOf start object isOptional) (propertyOf start' object' isOptional) := by
  refine .bind_still (g := fun t => ?_)
  cases t <;> infer_instance

instance shifts_elementOf {object object' : Tree} {isOptional : Bool} [ho : IsShift k object object'] :
    Shifts k (elementOf r ctx start object isOptional) (elementOf r' ctx start' object' isOptional) := by
  unfold elementOf
  infer_instance

instance shifts_callOf {callee callee' : Tree} {isOptional : Bool} [hc : IsShift k callee callee'] :
    Shifts k (callOf r ctx start callee isOptional) (callOf r' ctx start' callee' isOptional) := by
  unfold callOf
  infer_instance

instance shifts_followed {reach : Reach} {a a' : Accessed} [ha : IsShift k a a'] :
    Shifts k (followed r ctx reach start a) (followed r' ctx reach start' a') := by
  refine .bind_still (g := fun _ => .ite (q := .bind_still (g := fun _ => .ite (q := .bind_still (g := fun _ =>
    .ite (q := .bind_still (g := fun _ => .ite (q := .bind_still (g := fun t => ?_)))))))))
  cases t <;> infer_instance

instance shifts_access {reach : Reach} : Shifts k (access r ctx reach) (access r' ctx reach) := by
  unfold access
  infer_instance

/-! ### Operators -/

instance shifts_updateOf {operator : String} {isPrefix : Bool} {target target' : Tree} [ht : IsShift k target target'] :
    Shifts k (updateOf start operator isPrefix target) (updateOf start' operator isPrefix target') := by
  unfold updateOf
  infer_instance

instance shifts_updated : Shifts k (updated r ctx) (updated r' ctx) := by
  refine .bind (g := fun start => .bind (g := fun t => .bind_still (g := fun u => ?_)))
  cases u <;> infer_instance

instance shifts_unary : Shifts k (unary r ctx) (unary r' ctx) := by
  refine .bind (g := fun start => ?_)
  extract_lets operation operation'
  have hoperation (label : Label) : Shifts k (operation label) (operation' label) :=
    .bind_still (g := fun _ => inferInstance)
  refine .bind_still (g := fun t => ?_)
  cases t with
  | name word escaped => cases escaped <;> infer_instance
  | _ => infer_instance

instance shifts_firstOperand {level : Nat} : Shifts k (firstOperand r ctx level) (firstOperand r' ctx level) := by
  refine .bind_still (g := fun t => ?_)
  cases t with
  | privateName text =>
    refine .bind (g := fun name => .bind_still (g := fun u => ?_))
    rcases level? ctx u with _ | ⟨operator, l⟩ <;> infer_instance
  | _ => infer_instance

instance shifts_operation {level : Nat} : Shifts k (operation r ctx level) (operation r' ctx level) := by
  refine .bind (g := fun start => .bind (g := fun first => .iterate (r := fun left => .bind_still (g := fun t => ?_))))
  rcases level? ctx t with _ | ⟨operator, l⟩ <;> infer_instance

theorem arrowOf_of_ne {callsAsync : Bool} {head : Tree}
    (hne : ∀ span callee parts items,
      head ≠ .node (.call false) span (.node (.identifier "async") callee parts :: items)) :
    arrowOf r ctx start callsAsync head =
      match head.arrowParameters? with
      | some items => arrowFrom r ctx start false items
      | none => failure := by
  rw [arrowOf.eq_def]
  split
  · exact (hne _ _ _ _ rfl).elim
  · rfl

instance shifts_arrowOf {callsAsync : Bool} {head head' : Tree} [hh : IsShift k head head'] :
    Shifts k (arrowOf r ctx start callsAsync head) (arrowOf r' ctx start' callsAsync head') := by
  obtain rfl := hh.eq
  by_cases hcall : ∃ span callee parts items,
      head = .node (.call false) span (.node (.identifier "async") callee parts :: items)
  · obtain ⟨span, callee, parts, items, rfl⟩ := hcall
    refine .bind_still (h := .guarded) (g := fun _ => ?_)
    rw [Tree.asParameters_shifted]
    cases Tree.asParameters false items with
    | none => exact .failure
    | some items => exact (inferInstance : Shifts k (arrowFrom r ctx start true items)
        (arrowFrom r' ctx start' true (shifted k items)))
  · push Not at hcall
    have hcall' (span callee : Span) (parts items : List Tree) :
        shifted k head ≠ .node (.call false) span (.node (.identifier "async") callee parts :: items) := by
      obtain ⟨label, span, children⟩ := head
      rintro heq
      obtain ⟨rfl, -, hchildren⟩ := Tree.node.inj heq
      match children, hchildren with
      | .node _ callee parts :: items, hchildren =>
        obtain ⟨rfl, -, -⟩ := Tree.node.inj (List.cons.inj hchildren).1
        exact hcall span callee parts items rfl
    rw [arrowOf_of_ne hcall, arrowOf_of_ne hcall', show (shifted k head).arrowParameters? = _ from
      Tree.arrowParameters?_shifted k head]
    cases head.arrowParameters? with
    | none => exact .failure
    | some items => exact (inferInstance : Shifts k (arrowFrom r ctx start false items)
        (arrowFrom r' ctx start' false (shifted k items)))

theorem targetOf?_shifted (operator : String) (t : Tree) :
    targetOf? operator (shifted k t) = (targetOf? operator t).map (shifted k) := by
  have htarget : (shifted k t).isSimpleTarget = t.isSimpleTarget := Tree.isSimpleTarget_shifted k t
  rw [targetOf?, targetOf?, htarget]
  split
  · exact Tree.asPattern_shifted k .plain t
  · split <;> rfl

instance shifts_assigned {left left' : Tree} [hl : IsShift k left left'] :
    Shifts k (assigned r ctx start left) (assigned r' ctx start' left') := by
  obtain rfl := hl.eq
  refine .bind_still (g := fun t => ?_)
  cases t with
  | mark m =>
    refine .ite (p := ?_)
    rw [targetOf?_shifted]
    cases targetOf? m left with
    | none => exact .failure
    | some target => exact .bind_still (g := fun _ => inferInstance)
  | _ => infer_instance

instance shifts_choice {test test' : Tree} [ht : IsShift k test test'] :
    Shifts k (choice r ctx start test) (choice r' ctx start' test') := by
  unfold choice
  infer_instance

instance shifts_yielded : Shifts k (yielded r ctx) (yielded r' ctx) := by
  unfold yielded
  infer_instance

instance steady_isArrowHead : Shifts.Steady isArrowHead :=
  ⟨fun h => by rw [isArrowHead, isArrowHead, h.token, h.newline, h.next.token, h.next.newline]⟩

instance steady_call : Shifts.Steady fun c => !c.newline && c.token == .mark "(" :=
  ⟨fun h => by rw [h.token, h.newline]⟩

instance shifts_assignment : Shifts k (assignment r ctx) (assignment r' ctx) := by
  unfold assignment
  infer_instance

instance shifts_expression : Shifts k (expression r ctx) (expression r' ctx) := by
  refine .bind (g := fun start => .bind (g := fun first => .bind (g := fun items => ?_)))
  match items with
  | [] => exact (inferInstance : Shifts k (node start .sequence []) (node (shifted k start) .sequence []))
  | [t] => exact (inferInstance : Shifts k (pure t) (pure (shifted k t)))
  | t :: u :: us =>
    exact (inferInstance : Shifts k (node start .sequence (t :: u :: us).reverse)
      (node (shifted k start) .sequence (shifted k (t :: u :: us)).reverse))

end Relabel.Script
