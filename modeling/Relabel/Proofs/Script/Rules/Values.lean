import Relabel.Proofs.Script.Agreement
import Relabel.Script.Operation

/-!
# Values in front of another line

Every rule for values agrees with itself in front of another line, if the rules it asks do.
-/

namespace Relabel.Script
open Reading
namespace Agrees
variable {s : Sequel} {r r' : Rules} [hr : ∀ goal ctx, Needs s (r goal ctx) (r' goal ctx)] {ctx : Context}

/-! ### Functions -/

instance needs_bindingElement : Needs s (bindingElement r ctx) (bindingElement r' ctx) := by
  unfold bindingElement
  infer_instance

instance needs_parameter : Needs s (parameter r ctx) (parameter r' ctx) := by
  unfold parameter
  infer_instance

instance needs_parameters : Needs s (parameters r ctx) (parameters r' ctx) := by
  unfold parameters
  infer_instance

instance needs_braced {label : Label} : Needs s (braced r ctx label) (braced r' ctx label) := by
  unfold braced
  infer_instance

instance needs_functionParts {isAsync isGenerator : Bool} :
    Needs s (functionParts r isAsync isGenerator) (functionParts r' isAsync isGenerator) := by
  unfold functionParts
  infer_instance

theorem respects_beginsFunction : Respects s beginsFunction :=
  ⟨fun _ _ _ _ => rfl, fun c last hc => by simp [beginsFunction, hc, Sequel.entry]⟩

theorem respects_beginsProperty : Respects s fun c => !c.newline && beginsProperty c.token :=
  ⟨fun _ _ _ _ => rfl, fun c last hc => by simp [beginsProperty, hc, Sequel.entry]⟩

instance needs_functionFrom {start : Nat} {isAsync isNamed : Bool} {outer : Option Context} :
    Needs s (functionFrom r start isAsync isNamed outer) (functionFrom r' start isAsync isNamed outer) := by
  unfold functionFrom
  infer_instance

instance needs_arrowFrom {start : Nat} {isAsync : Bool} {head : List Tree} :
    Needs s (arrowFrom r ctx start isAsync head) (arrowFrom r' ctx start isAsync head) := by
  unfold arrowFrom
  infer_instance

instance needs_propertyName : Needs s (propertyName r ctx) (propertyName r' ctx) := by
  refine needs_here_bind (h := fun start => token_needs fun t => ?_)
  cases t with
  | name text escaped => exact leaf _ nofun nofun
  | privateName text => exact leaf _ nofun nofun
  | string text => exact (leaf _ nofun nofun).after fun _ => inferInstance
  | number value => exact (leaf _ nofun nofun).after fun _ => inferInstance
  | bigint text => exact (leaf _ nofun nofun).after fun _ => inferInstance
  | _ => infer_instance

instance needs_methodFrom {start : Nat} {m : Modifiers} {name : Tree} :
    Needs s (methodFrom r start m name) (methodFrom r' start m name) := by
  unfold methodFrom
  infer_instance

/-! ### Collections -/

instance needs_spreadable : Needs s (spreadable r ctx) (spreadable r' ctx) := by
  unfold spreadable
  infer_instance

instance needs_arrayItem : Needs s (arrayItem r ctx) (arrayItem r' ctx) := by
  unfold arrayItem
  exact sees_bind ((leaf _ nofun nofun).after fun _ => inferInstance) inferInstance

instance needs_array : Needs s (array r ctx) (array r' ctx) := by
  unfold array
  infer_instance

instance keeps_modifiers : Keeps s modifiers modifiers := by
  have hnamed : Respects s fun c => beginsProperty c.token || c.token == .stop :=
    .of_token (g := fun t => beginsProperty t || t == .stop) (Token.forall_opens fun _ _ => rfl)
  have hasync : Respects s fun c => !c.newline && (beginsProperty c.token || c.token == .mark "*") :=
    ⟨fun _ _ _ _ => rfl, fun c last hc => by simp [beginsProperty, hc, Sequel.entry]⟩
  have hword₁ := keeps_takeWordBefore (s := s) "async" (by decide) hasync
  have hword₂ := keeps_takeWordBefore (s := s) "get" (by decide) hnamed
  have hword₃ := keeps_takeWordBefore (s := s) "set" (by decide) hnamed
  unfold modifiers
  infer_instance

instance needs_property : Needs s (property r ctx) (property r' ctx) := by
  refine needs_here_bind (h := fun start => keeps_modifiers.before fun m => needs_propertyName.after fun name => ?_)
  refine (keeps_sees "(").before fun b => ?_
  cases name.label <;> infer_instance

instance needs_objectItem : Needs s (objectItem r ctx) (objectItem r' ctx) := by
  unfold objectItem
  infer_instance

instance needs_object : Needs s (object r ctx) (object r' ctx) := by
  unfold object
  infer_instance

instance needs_template {isTagged : Bool} : Needs s (template r ctx isTagged) (template r' ctx isTagged) := by
  refine needs_here_bind (h := fun start => after (iterate_needs (·.2 = true) ?_ nofun) fun _ => inferInstance)
  rintro ⟨items, done⟩
  cases done with
  | true => exact .pure rfl
  | false =>
    refine of_needs (h := token_needs fun t => ?_)
    cases t with
    | template raw valid isLast => exact guard_bind (h := (leaf _ nofun nofun).after fun _ => inferInstance)
    | _ => infer_instance

instance needs_binding : Needs s (binding r ctx) (binding r' ctx) := by
  unfold binding
  refine .before inferInstance fun isArray => .before inferInstance fun isObject => ?_
  extract_lets declared
  have hdeclared (written : Tree) : Keeps s (declared written) (declared written) := by
    cases h : written.asPattern .plain <;> simp only [declared, h] <;> infer_instance
  infer_instance

/-! ### Classes -/

instance keeps_fieldFrom {start : Nat} {name : Tree} : Keeps s (fieldFrom r start name) (fieldFrom r' start name) := by
  unfold fieldFrom
  infer_instance

instance needs_decorator : Needs s (decorator r ctx) (decorator r' ctx) := by
  unfold decorator
  infer_instance

instance keeps_decorators : Keeps s (decorators r ctx) (decorators r' ctx) := by
  unfold decorators
  infer_instance

instance needs_member {start : Nat} {isStatic : Bool} :
    Needs s (member r ctx start isStatic) (member r' ctx start isStatic) := by
  have hword := keeps_takeWordBefore (s := s) "accessor" (by decide) respects_beginsProperty
  unfold member
  infer_instance

instance needs_memberItem : Needs s (memberItem r ctx) (memberItem r' ctx) := by
  have hname : Respects s fun c => !endsMemberName c.token :=
    .of_token (g := fun t => !endsMemberName t) (Token.forall_opens fun _ _ => rfl)
  have hword := keeps_takeWordBefore (s := s) "static" (by decide) hname
  unfold memberItem
  infer_instance

instance needs_classFrom {start : Nat} {isNamed : Bool} {before : List Tree} :
    Needs s (classFrom r ctx start isNamed before) (classFrom r' ctx start isNamed before) := by
  have hsees := keeps_seesWord (s := s) "extends" (by decide)
  have htake := keeps_takeWord (s := s) "extends" (by decide)
  refine after inferInstance fun _ => .before inferInstance fun a => .before inferInstance fun b => ?_
  extract_lets anonymous named named'
  have hnamed (name : List Tree) : Keeps s (named name) (named' name) := by
    refine .before htake fun b => ?_
    extract_lets body body'
    have hbody (heritage : List Tree) : Keeps s (body heritage) (body' heritage) :=
      .before inferInstance fun _ => .before inferInstance fun _ => inferInstance
    infer_instance
  infer_instance

/-! ### What follows a value -/

instance needs_arguments : Needs s (arguments r ctx) (arguments r' ctx) := by
  unfold arguments
  infer_instance

instance needs_parenthesized : Needs s (parenthesized r ctx) (parenthesized r' ctx) := by
  refine needs_here_bind (h := fun start => after inferInstance fun _ => ?_)
  refine keeps_of_needs (h := needs_here_bind (h := fun inside => after inferInstance fun ⟨items, trailing⟩ => ?_))
  refine branch inferInstance ?_
  split <;> infer_instance

instance needs_creation : Needs s (creation r ctx) (creation r' ctx) := by
  have hcalls : Respects s fun c => c.token == .mark "(" :=
    .of_token (g := (· == .mark "(")) fun _ ht => ht.beq_mark
  refine needs_here_bind (h := fun start => after inferInstance fun _ => .before inferInstance fun isMeta => ?_)
  refine branch inferInstance (keeps_of_needs (h := ?_))
  exact seesWordBefore_needs hcalls inferInstance inferInstance

instance needs_importing : Needs s (importing r ctx) (importing r' ctx) := by
  have hmeta := keeps_takeWord (s := s) "meta" (by decide)
  have hsource := keeps_takeWord (s := s) "source" (by decide)
  refine needs_here_bind (h := fun start => after inferInstance fun _ => ?_)
  extract_lets call call'
  have hcall (phase : String) : Keeps s (call phase) (call' phase) :=
    .before inferInstance fun _ => inferInstance
  infer_instance

theorem superior_agrees {p : Token → Prop} (hstop : ¬ p .stop) (hinvalid : ¬ p .invalid) :
    Agrees s p (fun _ => False) superior superior :=
  (leaf _ hstop hinvalid).after fun _ => inferInstance

theorem wordValue_agrees (word : String) :
    Agrees s (· = .name word false) (fun _ => False) (wordValue r ctx word) (wordValue r' ctx word) := by
  unfold wordValue
  refine here_bind (fun start => ?_) nofun
  split
  case h_10 => exact takeWordBefore_bind (by decide) respects_beginsFunction inferInstance inferInstance
  all_goals first | exact leaf _ nofun nofun | exact superior_agrees nofun nofun | infer_instance

/-- A slash that begins no comment begins a regular expression here. -/
theorem markValue_agrees (mark : String) : Needs s (markValue r ctx mark) (markValue r' ctx mark) := by
  refine needs_here_bind (h := fun start => branch inferInstance (branch inferInstance (branch inferInstance
    (branch inferInstance ?_))))
  refine .before inferInstance fun _ => token_needs fun t => ?_
  cases t with
  | regex text => exact leaf _ nofun nofun
  | _ => infer_instance

instance needs_value : Needs s (value r ctx) (value r' ctx) := by
  refine token_needs fun t => ?_
  cases t with
  | name word escaped =>
    cases escaped with
    | false => exact wordValue_agrees word
    | true => infer_instance
  | number v => exact leaf _ nofun nofun
  | bigint text => exact leaf _ nofun nofun
  | string text => exact leaf _ nofun nofun
  | mark mark => exact of_needs (h := markValue_agrees mark)
  | _ => infer_instance

instance needs_propertyOf {start : Nat} {object : Tree} {isOptional : Bool} :
    Needs s (propertyOf start object isOptional) (propertyOf start object isOptional) := by
  refine token_needs fun t => ?_
  cases t with
  | name text escaped => exact (advance nofun nofun).after fun _ => inferInstance
  | privateName text => exact (advance nofun nofun).after fun _ => inferInstance
  | _ => infer_instance

instance needs_elementOf {start : Nat} {object : Tree} {isOptional : Bool} :
    Needs s (elementOf r ctx start object isOptional) (elementOf r' ctx start object isOptional) := by
  unfold elementOf
  infer_instance

instance needs_callOf {start : Nat} {callee : Tree} {isOptional : Bool} :
    Needs s (callOf r ctx start callee isOptional) (callOf r' ctx start callee isOptional) := by
  unfold callOf
  infer_instance

instance keeps_followed {reach : Reach} {start : Nat} {a : Accessed} :
    Keeps s (followed r ctx reach start a) (followed r' ctx reach start a) := by
  refine .before inferInstance fun isMember => branch inferInstance (.before inferInstance fun isOptional =>
    branch inferInstance (.before inferInstance fun isElement => branch inferInstance
    (.before inferInstance fun isCall => branch inferInstance
    (token_same (fun t => ?_) (Token.forall_opens fun _ _ => rfl)))))
  cases t with
  | template raw valid isLast => exact of_keeps inferInstance
  | _ => exact .pure trivial

instance needs_access {reach : Reach} : Needs s (access r ctx reach) (access r' ctx reach) := by
  unfold access
  infer_instance

/-! ### Operators -/

instance keeps_updateOf {start : Nat} {operator : String} {isPrefix : Bool} {target : Tree} :
    Keeps s (updateOf start operator isPrefix target) (updateOf start operator isPrefix target) := by
  unfold updateOf
  infer_instance

instance needs_updated : Needs s (updated r ctx) (updated r' ctx) := by
  refine needs_here_bind (h := fun start => after inferInstance fun t => token_same (fun u => ?_)
    (Token.forall_opens fun _ _ => rfl))
  cases u with
  | mark m =>
    refine onSameLine_bind (fun b => branch (guard_bind (h := ?_)) (.pure trivial)) nofun
    exact (advance nofun nofun).after fun _ => inferInstance
  | _ => exact .pure trivial

instance needs_unary : Needs s (unary r ctx) (unary r' ctx) := by
  refine needs_here_bind (h := fun start => ?_)
  extract_lets operation operation'
  have hoperation {q : Token → Prop} (hstop : ¬ q .stop) (hinvalid : ¬ q .invalid) (label : Label) :
      Agrees s q (fun _ => False) (operation label) (operation' label) :=
    (advance hstop hinvalid).after fun _ => .before inferInstance fun _ => inferInstance
  refine token_needs fun t => ?_
  cases t with
  | mark m =>
    refine branch (hoperation nofun nofun _) (branch ?_ inferInstance)
    exact (advance nofun nofun).after fun _ => inferInstance
  | name word escaped =>
    cases escaped with
    | false => exact branch (hoperation nofun nofun _) (branch (hoperation nofun nofun _) inferInstance)
    | true => infer_instance
  | _ => infer_instance

/-- No operator opens a line. -/
theorem level?_of_opens {t : Token} (h : t.Opens) : level? ctx t = none := by
  rw [level?.eq_def]
  split
  · exact absurd rfl (h.ne_word (by decide))
  · exact absurd rfl (h.ne_word (by decide))
  · obtain ⟨_, -, h⟩ := h
    cases h
  · rfl

instance needs_firstOperand {level : Nat} : Needs s (firstOperand r ctx level) (firstOperand r' ctx level) := by
  refine token_needs fun t => ?_
  cases t with
  | privateName text =>
    refine (leaf _ nofun nofun).after fun name => token_same (fun u => of_keeps ?_) fun u hu => by
      rw [level?_of_opens hu]
      rfl
    rcases level? ctx u with _ | ⟨operator, l⟩ <;> infer_instance
  | _ => infer_instance

instance needs_operation {level : Nat} : Needs s (operation r ctx level) (operation r' ctx level) := by
  refine needs_here_bind (h := fun start => after inferInstance fun first => keeps_iterate (h := fun left => ?_))
  refine token_same (fun t => ?_) fun t ht => by
    rw [level?_of_opens ht]
    rfl
  by_cases ht : t = .stop ∨ t = .invalid
  · rcases ht with rfl | rfl <;> exact .pure trivial
  rcases level? ctx t with _ | ⟨operator, l⟩
  · exact .pure trivial
  · refine branch (.pure trivial) ((advance ?_ ?_).after fun _ => inferInstance)
    · rintro rfl 
      exact ht (.inl rfl)
    · rintro rfl 
      exact ht (.inr rfl)

instance needs_arrowOf {start : Nat} {callsAsync : Bool} {head : Tree} :
    Needs s (arrowOf r ctx start callsAsync head) (arrowOf r' ctx start callsAsync head) := by
  unfold arrowOf
  split
  · refine guard_bind (h := ?_)
    split <;> infer_instance
  · split <;> infer_instance

instance keeps_assigned {start : Nat} {left : Tree} :
    Keeps s (assigned r ctx start left) (assigned r' ctx start left) := by
  refine token_same (fun t => ?_) (Token.forall_opens fun _ _ => rfl)
  cases t with
  | mark m => 
    refine branch ?_ (.pure trivial)
    rcases targetOf? m left with _ | target
    · infer_instance
    · exact (advance nofun nofun).after fun _ => inferInstance
  | _ => exact .pure trivial

instance needs_choice {start : Nat} {test : Tree} : Needs s (choice r ctx start test) (choice r' ctx start test) := by
  unfold choice
  infer_instance

/-- No operand follows on the line where the program ends, and none does where another line begins. -/
theorem yielded_agrees : Agrees s (· = .name "yield" false) (fun _ => False) (yielded r ctx) (yielded r' ctx) := by
  refine here_bind (fun start => (advance nofun nofun).after fun _ => ?_) nofun
  refine onSameLine_bind (fun b => ?_) fun _ b => ?_
  · exact token_bind (fun t _ => of_keeps inferInstance) fun h => absurd rfl h.2
  · refine token_bind (fun t ht => ?_) fun _ _ _ => ?_
    · subst ht
      simp only [endsYield, Bool.or_true, if_true]
      exact of_keeps inferInstance
    · simp only [endsYield, Bool.or_true, Bool.not_false, Bool.true_or, if_true]
      exact of_keeps inferInstance

theorem respects_isArrowHead : Respects s isArrowHead := by
  have harrow : Respects s fun c => c.token == .mark "=>" && !c.newline :=
    ⟨fun _ _ _ _ => rfl, fun c last hc => by simp [hc]⟩
  refine ⟨fun c hin _ hc => ?_, fun c last hc => ?_⟩
  · cases h : c.token with
    | name word escaped =>
      have hnext := harrow.next hin hc h
      have hl : (s.longer c).token = .name word escaped := h
      simp only [isArrowHead, hl, h, Bool.and_assoc, hnext]
      rfl
    | _ => simp [isArrowHead, Sequel.longer, h]
  · rcases s.entry_token last with h | ⟨_, -, h⟩ <;> simp [isArrowHead, h, hc]

instance needs_assignment : Needs s (assignment r ctx) (assignment r' ctx) := by
  have hcall : Respects s fun c => !c.newline && c.token == .mark "(" :=
    ⟨fun _ _ _ _ => rfl, fun c last hc => by simp [hc]⟩
  have hasync := keeps_seesWordBefore (s := s) "async" (by decide) hcall
  refine needs_here_bind (h := fun start => seesWord_bind (by decide)
    (fun _ => branch_of (fun _ => yielded_agrees) fun _ => of_needs (h := ?_)) (branch_of (fun h => ?_) fun _ => ?_))
  case refine_2 => simp at h
  all_goals
    refine takeWordBefore_bind (by decide) respects_isArrowHead inferInstance ?_
    infer_instance

instance needs_expression : Needs s (expression r ctx) (expression r' ctx) := by
  refine needs_here_bind (h := fun start => after inferInstance fun first => .before inferInstance fun items => ?_)
  split <;> infer_instance

end Agrees
end Relabel.Script
