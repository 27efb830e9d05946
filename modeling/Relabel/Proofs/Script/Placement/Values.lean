import Relabel.Proofs.Script.Placement
import Relabel.Proofs.Script.Rules.Extents
import Relabel.Script.Operation

/-!
# Where values stand

Every rule for values builds trees that lie where it reads, if the rules it asks do.
-/

namespace Relabel.Script
open Reading

/-- The rules of the grammar build trees that lie where they read, and expressions with all their bytes. -/
class Placed (cs : List Char) (r : Rules) : Prop where
  yields : ∀ goal ctx, Yields cs true List.singleton (r goal ctx)
  covers : ∀ ctx c, CoversFrom c (r .assignment ctx)

variable {cs : List Char} {lo : Nat} {r : Rules} [hr : Placed cs r] {ctx : Context} {begun : Bool} {start : Nat}
  {ts : List Tree} {t : Tree}

instance yields_rule {goal : Goal} : Yields cs true List.singleton (r goal ctx) :=
  hr.yields goal ctx

instance yields_identifier : Yields cs true List.singleton (identifier ctx) := by
  refine ⟨.skip fun t => ?_⟩
  cases t with
  | name text escaped => exact .skip fun _ => (yields_leaf _).lays
  | _ => exact .failure

instance yields_stringLiteral : Yields cs true List.singleton stringLiteral := by
  refine ⟨.skip fun t => ?_⟩
  cases t with
  | string text => exact (yields_leaf _).lays
  | _ => exact .failure

/-! ### Functions -/

instance yields_bindingElement : Yields cs true List.singleton (bindingElement r ctx) :=
  ⟨.skip fun _ => .read fun _ => .skip fun _ => .ite (.read fun _ => .node _ _) (.pure rfl)⟩

instance yields_parameter : Yields cs true List.singleton (parameter r ctx) :=
  ⟨.skip fun _ => .skip fun _ => .ite (.read fun _ => .node _ _) yields_bindingElement.lays⟩

instance yields_parameters : Yields cs true List.singleton (parameters r ctx) :=
  ⟨.skip fun _ => .skip fun _ => .read fun ⟨_, _⟩ => .skip fun _ => .node _ _⟩

theorem yields_braced (label : Label) (hl : label ≠ .expressionStatement := by nofun) :
    Yields cs true List.singleton (braced r ctx label) :=
  ⟨.skip fun _ => .skip fun _ => .read fun _ => .node _ _ hl⟩

instance yields_functionBody : Yields cs true List.singleton (braced r ctx .body) :=
  yields_braced .body

instance yields_functionParts {isAsync isGenerator : Bool} :
    Yields cs true id (functionParts r isAsync isGenerator) :=
  ⟨.read fun _ => .read fun _ => .pure rfl⟩

instance yields_functionFrom {isAsync isNamed : Bool} {outer : Option Context} :
    Yields cs true List.singleton (functionFrom r start isAsync isNamed outer) := by
  refine ⟨fun {lo} => .skip fun _ => .skip fun isGenerator => ?_⟩
  extract_lets inner rest
  have hrest (name : List Tree) : Lays cs lo true true name List.singleton (rest name) :=
    .read fun _ => .node _ _
  exact .skip fun _ => .ite (.read fun _ => .give (hrest _)) (.give (hrest _))

/-- An expression as the body of a function has a statement around it with the same bytes. -/
instance yields_expressionBody : Yields cs true List.singleton (r .assignment ctx >>= fun value =>
    pure (.node .body value.span [.node .expressionStatement value.span [value]])) := by
  refine ⟨⟨fun {c _ _} hc hts hrun => ?_⟩⟩
  obtain ⟨value, d, hvalue, hpure⟩ := Agrees.run_bind hrun
  obtain ⟨rfl, rfl⟩ := Prod.mk.inj (Option.some.inj hpure)
  obtain ⟨hd, hle, hlies | ⟨hfalse, -⟩⟩ := yields_rule.lays.run hc (.inr ⟨rfl, rfl, Nat.le_refl _⟩) hvalue
  · rw [hr.covers ctx c value d hvalue]
    have hstatement : (Tree.node .expressionStatement ⟨c.start, d.last⟩ [value]).Lies cs c.start d.last :=
      hlies.lies_node hc.start hd.last
    have hbody : (Tree.node .body ⟨c.start, d.last⟩ [_]).Lies cs c.start d.last :=
      Tree.lies_node nofun (allLie_singleton.2 hstatement)
    exact ⟨hd, hle, .inl (allLie_singleton.2 (hbody.mono (hts.le hc) (Nat.le_refl _)))⟩
  · cases hfalse

theorem lays_arrowFrom {isAsync : Bool} {head : List Tree} :
    Lays cs lo true true head List.singleton (arrowFrom r ctx start isAsync head) := by
  refine .skip fun _ => .skip fun _ => .skip fun _ => ?_
  extract_lets inner rest
  have hrest (body : Tree) : Lays cs lo true true (head ++ [body]) List.singleton (rest body) :=
    .node _ (.arrow isAsync)
  refine .skip fun _ => .ite (.read hrest) ?_
  rw [← bind_assoc]
  exact .read hrest

instance yields_propertyName : Yields cs true List.singleton (propertyName r ctx) := by
  refine ⟨.skip fun _ => .skip fun t => ?_⟩
  cases t with
  | name text escaped => exact (yields_leaf _).lays
  | privateName text => exact (yields_leaf _).lays
  | string text => exact .read fun _ => .node _ _
  | number value => exact .read fun _ => .node _ _
  | bigint text => exact .read fun _ => .node _ _
  | _ => exact .skip fun _ => .read fun _ => .skip fun _ => .node _ _

instance moves_modifiers : Moves cs false modifiers := by
  unfold modifiers
  infer_instance

theorem lays_methodFrom {m : Modifiers} {name : Tree} :
    Lays cs lo true true [name] List.singleton (methodFrom r start m name) := by
  refine .skip fun _ => .read fun _ => .skip fun _ => ?_
  exact .nodeOf _ _ fun _ => .node _ _

/-! ### Collections -/

instance yields_spreadable : Yields cs true List.singleton (spreadable r ctx) :=
  ⟨.skip fun _ => .skip fun _ => .ite (.read fun _ => .node _ _) yields_rule.lays⟩

instance yields_arrayItem : Yields cs true (fun item : Tree × Bool => [item.1]) (arrayItem r ctx) := by
  refine ⟨.skip fun _ => .ite (.read fun _ => .pure rfl) (.read fun item => .skip fun comma => ?_)⟩
  refine .ite (.skip fun _ => ?_) (.pure rfl)
  exact .skip fun _ => .pure rfl

instance yields_array : Yields cs true List.singleton (array r ctx) := by
  refine ⟨.skip fun _ => .skip fun _ => .bind (.iterate (f := fun state => state.1.reverse) (fun state => ?_) ([], false))
    fun ⟨_, _⟩ => .node _ _⟩
  refine .skip fun _ => .ite (.pure rfl) (.read fun ⟨item, comma⟩ => ?_)
  exact .pure List.reverse_cons

instance yields_property : Yields cs true List.singleton (property r ctx) := by
  refine ⟨.skip fun _ => .skip fun m => .read fun name => .skip fun _ => .ite lays_methodFrom (.skip fun _ =>
    .skip fun _ => .ite (.read fun _ => .node _ _) ?_)⟩
  split
  · next text _ =>
    -- the name is a variable too
    have hreference {lo hi : Nat} (h : name.Lies cs lo hi) : (Tree.node (.identifier text) name.span []).Lies cs lo hi :=
      Tree.lies_node nofun h.le
    exact .skip fun _ => .skip fun _ => .changeTree hreference (.ite (.read fun _ => .node _ _) (.node _ _))
  · exact .failure

instance yields_objectItem : Yields cs true List.singleton (objectItem r ctx) :=
  ⟨.skip fun _ => .ite yields_spreadable.lays (.read fun _ => .skip fun _ => .pure rfl)⟩

instance yields_object : Yields cs true List.singleton (object r ctx) :=
  ⟨.skip fun _ => .skip fun _ => .read fun ⟨_, _⟩ => .node _ _⟩

instance yields_template {isTagged : Bool} : Yields cs true List.singleton (template r ctx isTagged) := by
  have hpart {lo : Nat} {b : Bool} {items : List Tree} : Lays cs lo b true items.reverse
      (fun o : Option (List Tree × Bool) => (o.getD (items, false)).1.reverse) (token >>= fun t => match t with
        | .template raw valid isLast => do
          guard (isTagged || valid)
          let part ← leaf (.templatePart raw)
          if isLast then return some (part :: items, true)
          else
            let value ← r .expression ctx.bracketed
            modify Cursor.asTemplate
            return some (value :: part :: items, false)
        | _ => failure) := by
    refine .skip fun t => ?_
    cases t with
    | template raw valid isLast =>
      refine .skip fun _ => .read fun part => .ite (.pure ?_) (.read fun value => .skip fun _ => .pure ?_)
      · exact List.reverse_cons
      · simp [List.singleton]
    | _ => exact .failure
  refine ⟨.skip fun _ => .bind (.iterate_needs (f := fun state => state.1.reverse) (a := ([], false)) hpart ?_)
    fun ⟨items, _⟩ => ?_⟩
  · rintro ⟨items, done⟩
    cases done with
    | true => exact .pure rfl
    | false => exact hpart
  · exact .node _ _

instance yields_binding : Yields cs true List.singleton (binding r ctx) := by
  refine ⟨fun {lo} => .skip fun _ => .skip fun _ => ?_⟩
  extract_lets declared
  have hdeclared (written : Tree) : Lays cs lo true true [written] List.singleton (declared written) := by
    cases h : written.asPattern .plain with
    | none =>
      simp only [declared, h]
      exact .failure
    | some pattern =>
      simp only [declared, h]
      exact .skip fun _ => .changeTree (fun hwritten => hwritten.asPattern h) (.pure rfl)
  exact .ite (.read hdeclared) (.ite (.read hdeclared) (.read hdeclared))

/-! ### Classes -/

theorem lays_fieldFrom {name : Tree} : Lays cs lo true true [name] List.singleton (fieldFrom r start name) := by
  refine .skip fun _ => ?_
  extract_lets rest
  have hrest (value : List Tree) : Lays cs lo true true (name :: value) List.singleton (rest value) :=
    .skip fun _ => .node _ _
  exact .ite (.read fun _ => .give (hrest _)) (.give (hrest _))

instance yields_decorator : Yields cs true List.singleton (decorator r ctx) :=
  ⟨.skip fun _ => .skip fun _ => .read fun _ => .node _ _⟩

instance yields_decorators : Yields cs false id (decorators r ctx) := by
  refine ⟨.bind (.iterate (f := List.reverse) (fun items => ?_) []) fun _ => .pure rfl⟩
  refine .skip fun _ => .ite (.read fun _ => ?_) (.pure rfl)
  exact .pure List.reverse_cons

instance yields_member {isStatic : Bool} : Yields cs true List.singleton (member r ctx start isStatic) :=
  ⟨.skip fun _ => .skip fun _ => .read fun _ => .skip fun _ => .skip fun _ => .ite (.skip fun _ => lays_methodFrom)
    (.skip fun _ => lays_fieldFrom)⟩

instance yields_memberItem : Yields cs false id (memberItem r ctx) := by
  refine ⟨.skip fun _ => .ite (.pure rfl) (.skip fun _ => .read fun before => .skip fun _ => .skip fun _ => ?_)⟩
  refine .ite (.read (h := yields_braced .staticBlock) fun block => ?_) (.read fun _ => .pure rfl)
  have hblock (lo hi : Nat) (h : AllLie cs lo hi (before ++ [block])) : AllLie cs lo hi block.children := by
    obtain ⟨mid, hbefore, hblock⟩ := allLie_append.1 h
    exact (allLie_singleton.1 hblock).children.mono hbefore.le (Nat.le_refl _)
  exact .change hblock (.bind (.node _ .staticBlock) fun _ => .pure rfl)

instance yields_members : Yields cs false (fun members : List (List Tree) => members.reverse.flatten)
    (iterate (fun members => do
      if ← take closeBrace then return none
      else return some ((← memberItem r ctx) :: members)) []) := by
  refine ⟨.iterate (f := fun members => members.reverse.flatten) (fun members => ?_) []⟩
  refine .skip fun _ => .ite (.pure rfl) (.read fun item => .pure ?_)
  simp

theorem lays_classFrom {isNamed : Bool} {before : List Tree} :
    Lays cs lo false true before List.singleton (classFrom r ctx start isNamed before) := by
  refine .skip fun _ => .skip fun _ => .skip fun _ => ?_
  extract_lets anonymous named
  have hnamed (name : List Tree) : Lays cs lo true true (before ++ name) List.singleton (named name) := by
    refine .skip fun _ => ?_
    extract_lets body
    have hbody (heritage : List Tree) :
        Lays cs lo true true (before ++ name ++ heritage) List.singleton (body heritage) := by
      exact .skip fun _ => .read fun _ => .node _ .classDefinition
    refine .ite (.read fun parent => ?_) (.give (hbody _))
    have hheritage (lo hi : Nat) (h : AllLie cs lo hi (before ++ name ++ [parent])) :
        AllLie cs lo hi (before ++ name ++ [.node .heritage parent.span [parent]]) :=
      h.nodeOf nofun
    exact .change hheritage (.give (hbody _))
  exact .ite (.read fun _ => .give (hnamed _)) (.give (hnamed _))

/-! ### What follows a value -/

instance yields_arguments : Yields cs true id (arguments r ctx) :=
  ⟨.skip fun _ => .read fun _ => .pure rfl⟩

instance yields_parenthesized : Yields cs true List.singleton (parenthesized r ctx) := by
  refine ⟨.skip fun start => .skip fun _ => .skip fun inside => .read fun ⟨items, trailing⟩ => ?_⟩
  refine .ite (.node _ (.arrowHead _)) ?_
  split
  · exact .node _ .paren
  · extract_lets stop
    have hitems (lo hi : Nat) (h : AllLie cs lo hi items) : AllLie cs lo hi [.node .sequence ⟨inside, stop⟩ items] :=
      allLie_singleton.2 (Tree.lies_node nofun h)
    exact .change hitems (.node _ .paren)

instance yields_creation : Yields cs true List.singleton (creation r ctx) := by
  refine ⟨fun {lo} => .skip fun start => .skip fun _ => .skip fun _ => .ite (.skip fun _ => .node _ _) ?_⟩
  refine .skip fun _ => .skip fun _ => .read fun callee => .skip fun _ => .skip fun _ => ?_
  extract_lets rest
  have hrest (args : List Tree) : Lays cs lo true true ([callee] ++ args) List.singleton (rest args) :=
    .node _ .create
  refine .ite (.read fun args => ?_) (.give (hrest _))
  exact hrest args

instance yields_importing : Yields cs true List.singleton (importing r ctx) := by
  refine ⟨fun {lo} => .skip fun start => .skip fun _ => ?_⟩
  extract_lets call
  have hcall (phase : String) : Lays cs lo true true [] List.singleton (call phase) :=
    .skip fun _ => .read fun ⟨_, _⟩ => .skip fun _ => .node _ (.importCall phase)
  refine .skip fun _ => .ite (.skip fun _ => .ite (.node _ (.metaProperty _)) ?_) (hcall _)
  exact .skip fun _ => .ite (hcall _) (.skip fun _ => hcall _)

instance yields_superior : Yields cs true List.singleton superior :=
  ⟨.read fun _ => .skip fun _ => .skip fun _ => .skip fun _ => .skip fun _ => .pure rfl⟩

instance yields_wordValue {word : String} : Yields cs true List.singleton (wordValue r ctx word) := by
  refine ⟨.skip fun start => ?_⟩
  split
  case h_6 => exact lays_classFrom
  case h_10 => exact .skip fun _ => .ite yields_functionFrom.lays yields_identifier.lays
  all_goals exact Yields.lays

instance yields_markValue {mark : String} : Yields cs true List.singleton (markValue r ctx mark) := by
  refine ⟨.skip fun start => .ite yields_parenthesized.lays (.ite yields_array.lays (.ite yields_object.lays
    (.ite (.read fun _ => lays_classFrom) (.skip fun _ => .skip fun t => ?_))))⟩
  cases t with
  | regex text => exact (yields_leaf _).lays
  | _ => exact .failure

instance yields_value : Yields cs true List.singleton (value r ctx) := by
  refine ⟨.skip fun t => ?_⟩
  cases t with
  | name word escaped => cases escaped <;> exact Yields.lays
  | number v => exact (yields_leaf _).lays
  | bigint text => exact (yields_leaf _).lays
  | string text => exact (yields_leaf _).lays
  | template raw valid isLast => exact yields_template.lays
  | mark mark => exact yields_markValue.lays
  | _ => exact .failure

theorem lays_propertyOf {object : Tree} {isOptional : Bool} :
    Lays cs lo true true [object] List.singleton (propertyOf start object isOptional) := by
  refine .skip fun t => ?_
  cases t with
  | name text escaped => exact .skip fun _ => .node _ _
  | privateName text => exact .skip fun _ => .node _ _
  | _ => exact .failure

theorem lays_elementOf {object : Tree} {isOptional : Bool} :
    Lays cs lo true true [object] List.singleton (elementOf r ctx start object isOptional) :=
  .skip fun _ => .read fun _ => .skip fun _ => .node _ _

theorem lays_callOf {callee : Tree} {isOptional : Bool} :
    Lays cs lo true true [callee] List.singleton (callOf r ctx start callee isOptional) :=
  .read fun _ => .node _ _

theorem lays_followed {reach : Reach} {a : Accessed} :
    Lays cs lo true true [a.tree] (fun o => [(o.getD a).tree]) (followed r ctx reach start a) := by
  refine .skip fun _ => .ite (.bind lays_propertyOf fun _ => .pure rfl) (.skip fun _ => .ite (.skip fun _ => ?_) ?_)
  · refine .skip fun _ => .skip fun _ => ?_
    extract_lets rest
    have hrest (t : Tree) : Lays cs lo true true [t] (fun o => [(o.getD a).tree]) (rest t) := .pure rfl
    exact .ite (.bind lays_callOf hrest) (.ite (.bind lays_elementOf hrest) (.bind lays_propertyOf hrest))
  · refine .skip fun _ => .ite (.bind lays_elementOf fun _ => .pure rfl) (.skip fun _ =>
      .ite (.bind lays_callOf fun _ => .pure rfl) (.skip fun t => ?_))
    cases t with
    | template raw valid isLast =>
      exact .skip fun _ => .read fun text => .bind (.node _ .taggedTemplate) fun _ => .pure rfl
    | _ => exact .pure rfl

instance yields_access {reach : Reach} : Yields cs true List.singleton (access r ctx reach) := by
  refine ⟨.skip fun start => .read fun first => .bind (.iterate (f := fun a : Accessed => [a.tree]) (fun a => ?_) _)
    fun a => .ite (.node _ .chain) (.pure rfl)⟩
  exact lays_followed

/-! ### Operators -/

theorem lays_updateOf {operator : String} {isPrefix : Bool} {target : Tree} :
    Lays cs lo true true [target] List.singleton (updateOf start operator isPrefix target) :=
  .skip fun _ => .node _ _

instance yields_updated : Yields cs true List.singleton (updated r ctx) := by
  refine ⟨.skip fun start => .read fun t => .skip fun u => ?_⟩
  cases u with
  | mark m => exact .skip fun _ => .ite (.skip fun _ => .skip fun _ => lays_updateOf) (.pure rfl)
  | _ => exact .pure rfl

instance yields_unary : Yields cs true List.singleton (unary r ctx) := by
  refine ⟨fun {lo} => .skip fun start => ?_⟩
  extract_lets operation
  have hoperation {label : Label} (hl : label ≠ .expressionStatement := by nofun) :
      Lays cs lo false true [] List.singleton (operation label) :=
    .skip fun _ => .read fun _ => .node _ _ hl
  refine .skip fun t => ?_
  cases t with
  | mark m => exact .ite hoperation (.ite (.skip fun _ => .read fun _ => lays_updateOf) yields_updated.lays)
  | name word escaped =>
    cases escaped with
    | false => exact .ite hoperation (.ite hoperation yields_updated.lays)
    | true => exact yields_updated.lays
  | _ => exact yields_updated.lays

instance yields_firstOperand {level : Nat} : Yields cs true List.singleton (firstOperand r ctx level) := by
  refine ⟨.skip fun t => ?_⟩
  cases t with
  | privateName text =>
    refine .read fun name => .skip fun u => ?_
    rcases level? ctx u with _ | ⟨operator, l⟩
    · exact .failure
    · exact .skip fun _ => .pure rfl
  | _ => exact yields_rule.lays

instance yields_operation {level : Nat} : Yields cs true List.singleton (operation r ctx level) := by
  refine ⟨.skip fun start => .read fun first => .iterate (f := List.singleton) (fun left => ?_) _⟩
  refine .skip fun t => ?_
  rcases level? ctx t with _ | ⟨operator, l⟩
  · exact .pure rfl
  · refine .ite (.pure rfl) (.skip fun _ => .read fun right => .skip fun _ => .bind (.node _ (.binary _)) fun _ => ?_)
    exact .pure rfl

theorem lays_arrowOf {callsAsync : Bool} {head : Tree} :
    Lays cs lo true true [head] List.singleton (arrowOf r ctx start callsAsync head) := by
  unfold arrowOf
  split
  · refine .skip fun _ => ?_
    split
    · next parameters h =>
      exact .change (fun _ _ hhead => (allLie_singleton.1 hhead).children.tail.asParameters h) lays_arrowFrom
    · exact .failure
  · split
    · next parameters h =>
      exact .change (fun _ _ hhead => (allLie_singleton.1 hhead).arrowParameters h) lays_arrowFrom
    · exact .failure

theorem lays_assigned {left : Tree} : Lays cs lo true true [left] List.singleton (assigned r ctx start left) := by
  refine .skip fun t => ?_
  cases t with
  | mark m =>
    refine .ite ?_ (.pure rfl)
    cases h : targetOf? m left with
    | none => exact .failure
    | some target =>
      have htarget {lo hi : Nat} (hleft : left.Lies cs lo hi) : target.Lies cs lo hi := by
        rw [targetOf?] at h
        split at h
        · exact hleft.asPattern h
        · split at h
          · rwa [← Option.some.inj h]
          · cases h
      exact .changeTree htarget (.skip fun _ => .read fun _ => .node _ (.assignment _))
  | _ => exact .pure rfl

theorem lays_choice {test : Tree} : Lays cs lo true true [test] List.singleton (choice r ctx start test) :=
  .skip fun _ => .read fun _ => .skip fun _ => .read fun _ => .node _ _

instance yields_yielded : Yields cs true List.singleton (yielded r ctx) := by
  refine ⟨.skip fun start => .skip fun _ => .skip fun _ => .skip fun _ => .ite (.node _ _) ?_⟩
  exact .skip fun _ => .read fun _ => .node _ _

instance yields_assignment : Yields cs true List.singleton (assignment r ctx) := by
  refine ⟨.skip fun start => .skip fun _ => .ite yields_yielded.lays (.skip fun _ => .ite (.read fun _ => lays_arrowFrom) ?_)⟩
  refine .skip fun _ => .read fun left => .skip fun _ => .ite lays_choice (.skip fun _ => .ite lays_arrowOf lays_assigned)

instance yields_expression : Yields cs true List.singleton (expression r ctx) := by
  refine ⟨.skip fun start => .read fun first => .bind (.iterate (f := List.reverse) (fun items => ?_) [first]) fun items => ?_⟩
  · refine .skip fun _ => .ite (.read fun t => ?_) (.pure rfl)
    exact .pure List.reverse_cons
  · split
    · exact .pure rfl
    · exact .node _ .sequence

end Relabel.Script
