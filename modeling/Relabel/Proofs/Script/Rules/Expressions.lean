import Relabel.Proofs.Script.Rules.Extents
import Relabel.Proofs.Script.Stream

/-!
# Where expressions stand

An expression that is no list takes the bytes from its first token to the end of the last token that is read for it
(`coversFrom_assignment`).
-/

namespace Relabel.Script
open Reading
variable {α β : Type} {start : Nat} {r : Rules} {ctx : Context} {c d : Cursor} {t : Tree}

/-- The step leaves the cursor where it is. -/
class Stays (m : Reading α) : Prop where
  eq : ∀ {c a d}, m.run c = some (a, d) → d = c

namespace Stays
variable {m : Reading α}

instance pure (a : α) : Stays (pure a : Reading α) :=
  ⟨fun h => (Prod.mk.inj (Option.some.inj h)).2.symm⟩

instance failure : Stays (failure : Reading α) :=
  ⟨fun h => by cases h⟩

instance get : Stays (get : Reading Cursor) :=
  ⟨fun h => (Prod.mk.inj (Option.some.inj h)).2.symm⟩

instance bind {k : α → Reading β} [hm : Stays m] [hk : ∀ a, Stays (k a)] : Stays (m >>= k) := by
  refine ⟨fun h => ?_⟩
  obtain ⟨a, c₁, h₁, h₂⟩ := Agrees.run_bind h
  rw [(hk a).eq h₂, hm.eq h₁]

instance ite {φ : Prop} [Decidable φ] {x y : Reading α} [hx : Stays x] [hy : Stays y] : Stays (if φ then x else y) := by
  split
  · exact hx
  · exact hy

instance guard (φ : Prop) [Decidable φ] : Stays (guard φ : Reading Unit) :=
  ⟨eq_of_run_guard⟩

instance token : Stays token := by
  unfold Reading.token
  infer_instance

instance here : Stays here := by
  unfold Reading.here
  infer_instance

instance onSameLine : Stays onSameLine := by
  unfold Reading.onSameLine
  infer_instance

instance sees (mark : String) : Stays (sees mark) := by
  unfold Reading.sees
  infer_instance

instance seesWord (word : String) : Stays (seesWord word) := by
  unfold Reading.seesWord
  infer_instance

instance seesWordBefore (word : String) (after : Cursor → Bool) : Stays (seesWordBefore word after) := by
  unfold Reading.seesWordBefore
  infer_instance

end Stays

/-- The step takes a tree that takes all bytes from `start` on to another such tree. -/
structure Extends (start : Nat) (t : Tree) (f : α → Tree) (m : Reading α) : Prop where
  span : ∀ {c a d}, m.run c = some (a, d) → t.span = ⟨start, c.last⟩ → (f a).span = ⟨start, d.last⟩

namespace Extends
variable {f : α → Tree} {m : Reading α}

/-- A tree that is built from `start` on. -/
theorem of_covers {m : Reading Tree} [h : Covers start m] : Extends start t id m :=
  ⟨fun hrun _ => h.span hrun⟩

theorem pure {a : α} (h : f a = t) : Extends start t f (pure a) := by
  refine ⟨fun hrun ht => ?_⟩
  obtain ⟨rfl, rfl⟩ := Prod.mk.inj (Option.some.inj hrun)
  rw [h, ht]

theorem failure : Extends start t f (failure : Reading α) :=
  ⟨fun h => by cases h⟩

theorem ite {φ : Prop} [Decidable φ] {x y : Reading α} (hx : Extends start t f x) (hy : Extends start t f y) :
    Extends start t f (if φ then x else y) := by
  split
  · exact hx
  · exact hy

theorem peek {k : β → Reading α} {m : Reading β} [hm : Stays m] (hk : ∀ b, Extends start t f (k b)) :
    Extends start t f (m >>= k) := by
  refine ⟨fun hrun ht => ?_⟩
  obtain ⟨b, c₁, h₁, h₂⟩ := Agrees.run_bind hrun
  exact (hk b).span h₂ (by rw [hm.eq h₁, ht])

protected theorem bind {g : β → Tree} {k : α → Reading β} (h : Extends start t f m)
    (hk : ∀ a, Extends start (f a) g (k a)) : Extends start t g (m >>= k) := by
  refine ⟨fun hrun ht => ?_⟩
  obtain ⟨a, c₁, h₁, h₂⟩ := Agrees.run_bind hrun
  exact (hk a).span h₂ (h.span h₁ ht)

/-- A mark that is not there has not been read. -/
theorem take {mark : String} {k : Bool → Reading α} (hyes : ∀ u, Extends start u f (k true))
    (hno : Extends start t f (k false)) : Extends start t f (take mark >>= k) := by
  refine ⟨fun {c _ _} hrun ht => ?_⟩
  rw [StateT.run_bind, run_take] at hrun
  split at hrun
  · exact (hyes (.node .this ⟨start, c.next.last⟩ [])).span hrun rfl
  · exact hno.span hrun ht

/-- What has been read before a step does not matter if all its trees are built anew. -/
theorem read {k : β → Reading α} {m : Reading β} (hk : ∀ b u, Extends start u f (k b)) :
    Extends start t f (m >>= k) := by
  refine ⟨fun hrun _ => ?_⟩
  obtain ⟨b, c₁, h₁, h₂⟩ := Agrees.run_bind hrun
  exact (hk b (.node .this ⟨start, c₁.last⟩ [])).span h₂ rfl

theorem built {k : Tree → Reading α} {m : Reading Tree} [hm : Covers start m] (hk : ∀ u, Extends start u f (k u)) :
    Extends start t f (m >>= k) :=
  .bind (of_covers (m := m)) hk

theorem iterate {step : α → Reading (Option α)} (h : ∀ a, Extends start (f a) (fun o => f (o.getD a)) (step a))
    (a : α) : Extends start (f a) f (iterate step a) := by
  have hrepeat (n : Nat) (a : α) : Extends start (f a) f (repeatUpTo step n a) := by
    induction n generalizing a with
    | zero => exact .failure
    | succ n ih =>
      refine .bind (h a) fun o => ?_
      cases o with
      | none => exact pure rfl
      | some b => exact ih b
  exact ⟨fun hrun ht => (hrepeat _ a).span hrun ht⟩

end Extends

namespace CoversFrom
variable {m : Reading α} {f : α → Tree} {x : Reading Tree}

theorem failure : CoversFrom c (failure : Reading Tree) :=
  fun _ _ h => by cases h

theorem stays {k : α → Reading Tree} [hm : Stays m] (hk : ∀ a, CoversFrom c (k a)) : CoversFrom c (m >>= k) := by
  intro t d hrun
  obtain ⟨a, c₁, h₁, h₂⟩ := Agrees.run_bind hrun
  rw [hm.eq h₁] at h₂
  exact hk a t d h₂

/-- A token that is read again as another one begins where it does. -/
theorem reread {change : Cursor → Cursor} {k : Unit → Reading Tree} (hstart : (change c).start = c.start)
    (hk : CoversFrom (change c) (k ())) : CoversFrom c (modify change >>= k) := by
  intro t d hrun
  rw [← hstart]
  exact hk t d hrun

theorem extended {k : Tree → Reading Tree} (hx : CoversFrom c x) (hk : ∀ t, Extends c.start t id (k t)) :
    CoversFrom c (x >>= k) := by
  intro t d hrun
  obtain ⟨u, c₁, h₁, h₂⟩ := Agrees.run_bind hrun
  exact (hk u).span h₂ (hx u c₁ h₁)

theorem takeWordBefore {word : String} {after : Cursor → Bool} {k : Bool → Reading Tree}
    (hyes : Covers c.start (k true)) (hno : CoversFrom c (k false)) : CoversFrom c (takeWordBefore word after >>= k) := by
  intro t d hrun
  rw [StateT.run_bind, run_takeWordBefore] at hrun
  split at hrun
  · exact hyes.span hrun
  · exact hno t d hrun

end CoversFrom

/-! ### Values -/

namespace Covers

instance arrowFrom {isAsync : Bool} {head : List Tree} : Covers start (arrowFrom r ctx start isAsync head) := by
  unfold Script.arrowFrom
  infer_instance

instance propertyOf {object : Tree} {isOptional : Bool} : Covers start (propertyOf start object isOptional) := by
  refine bind (h := fun t => ?_)
  cases t <;> infer_instance

instance elementOf {object : Tree} {isOptional : Bool} : Covers start (elementOf r ctx start object isOptional) := by
  unfold Script.elementOf
  infer_instance

instance callOf {callee : Tree} {isOptional : Bool} : Covers start (callOf r ctx start callee isOptional) := by
  unfold Script.callOf
  infer_instance

instance updateOf {operator : String} {isPrefix : Bool} {target : Tree} :
    Covers start (updateOf start operator isPrefix target) := by
  unfold Script.updateOf
  infer_instance

instance arrowOf {callsAsync : Bool} {head : Tree} : Covers start (arrowOf r ctx start callsAsync head) := by
  unfold Script.arrowOf
  split
  · refine bind (h := fun _ => ?_)
    split <;> infer_instance
  · split <;> infer_instance

instance choice {test : Tree} : Covers start (choice r ctx start test) := by
  unfold Script.choice
  infer_instance

end Covers

namespace CoversFrom

theorem identifier : CoversFrom c (identifier ctx) := by
  refine stays fun t => ?_
  cases t with
  | name text escaped => exact stays fun _ => leaf _
  | _ => exact failure

theorem parenthesized : CoversFrom c (parenthesized r ctx) := by
  refine here (of_covers (h := .bind (h := fun _ => .bind (h := fun _ => .bind (h := fun found => ?_)))))
  obtain ⟨items, trailing⟩ := found
  dsimp only
  split
  · infer_instance
  · split <;> infer_instance

theorem array : CoversFrom c (array r ctx) := by
  unfold Script.array
  exact here of_covers

theorem object : CoversFrom c (object r ctx) := by
  unfold Script.object
  exact here of_covers

theorem template {isTagged : Bool} : CoversFrom c (template r ctx isTagged) := by
  unfold Script.template
  exact here of_covers

theorem creation : CoversFrom c (creation r ctx) := by
  refine here (of_covers (h := .bind (h := fun _ => .bind (h := fun isMeta => ?_))))
  split
  · infer_instance
  · exact .bind (h := fun _ => .bind (h := fun _ => .bind (h := fun callee => .bind (h := fun _ => inferInstance))))

theorem importing : CoversFrom c (importing r ctx) := by
  refine here (of_covers (h := .bind (h := fun _ => ?_)))
  extract_lets call
  have hcall (phase : String) : Covers c.start (call phase) := by
    unfold call
    infer_instance
  infer_instance

theorem superior : CoversFrom c superior :=
  extended (leaf _) fun _ => .peek fun _ => .peek fun _ => .peek fun _ => .peek fun _ => .pure rfl

theorem wordValue {word : String} : CoversFrom c (wordValue r ctx word) := by
  refine here ?_
  split
  case h_5 => exact of_covers
  case h_6 => exact of_covers
  case h_7 => exact creation
  case h_8 => exact importing
  case h_9 => exact superior
  case h_10 => exact takeWordBefore (by rw [if_pos rfl]; infer_instance) identifier
  all_goals exact leaf _

theorem markValue {mark : String} : CoversFrom c (markValue r ctx mark) := by
  refine here (ite parenthesized (ite array (ite object (ite of_covers (reread (Cursor.last_asRegex c).2 ?_)))))
  refine stays fun u => ?_
  cases u with
  | regex text => exact leaf _
  | _ => exact failure

theorem value : CoversFrom c (value r ctx) := by
  refine stays fun t => ?_
  cases t with
  | name word escaped => 
    cases escaped with
    | false => exact wordValue
    | true => exact identifier
  | number v => exact leaf _
  | bigint text => exact leaf _
  | string text => exact leaf _
  | template raw valid isLast => exact template
  | mark mark => exact markValue
  | _ => exact failure

theorem followed {reach : Reach} (a : Accessed) :
    Extends start a.tree (fun o => (o.getD a).tree) (followed r ctx reach start a) := by
  refine .take (fun u => .built fun _ => .pure rfl) (.take (fun u => .peek fun _ => .peek fun _ => .peek fun _ => ?_) ?_)
  · extract_lets rest
    have hrest (t : Tree) : Extends start t (fun o => (o.getD a).tree) (rest t) := .pure rfl
    exact .ite (.built hrest) (.ite (.built hrest) (.built hrest))
  · refine .peek fun _ => .ite (.built fun _ => .pure rfl) (.peek fun _ => .ite (.built fun _ => .pure rfl) ?_)
    refine .peek fun t => ?_
    cases t with
    | template raw valid isLast => exact .peek fun _ => .read fun text _ => .built fun _ => .pure rfl
    | _ => exact .pure rfl

theorem access {reach : Reach} : CoversFrom c (access r ctx reach) := by
  refine here (extended value fun first => ?_)
  refine .bind (.iterate (f := Accessed.tree) followed { tree := first }) fun a => ?_
  exact .ite .of_covers (.pure rfl)

/-! ### Operators -/

theorem updated : CoversFrom c (updated r ctx) := by
  refine here (extended access fun t => .peek fun u => ?_)
  cases u with
  | mark m => exact .peek fun _ => .ite (.peek fun _ => .of_covers) (.pure rfl)
  | _ => exact .pure rfl

theorem unary : CoversFrom c (unary r ctx) := by
  refine here ?_
  extract_lets operation
  have hoperation (label : Label) : Covers c.start (operation label) := by
    unfold operation
    infer_instance
  refine stays fun t => ?_
  cases t with
  | mark m => exact ite of_covers (ite of_covers updated)
  | name word escaped =>
    cases escaped with
    | false => exact ite of_covers (ite of_covers updated)
    | true => exact updated
  | _ => exact updated

end CoversFrom

/-- The rules for operands build trees of all that is read for them. -/
class Covering (r : Rules) : Prop where
  operation : ∀ level ctx c, CoversFrom c (r (.operation level) ctx)
  unary : ∀ ctx c, CoversFrom c (r .unary ctx)

namespace CoversFrom
variable [hr : Covering r]

theorem firstOperand {level : Nat} : CoversFrom c (firstOperand r ctx level) := by
  refine stays fun t => ?_
  cases t with
  | privateName text =>
    refine extended (leaf _) fun name => .peek fun u => ?_
    rcases level? ctx u with _ | ⟨operator, l⟩
    · exact .failure
    · exact .peek fun _ => .pure rfl
  | _ => exact hr.unary ctx c

theorem operation {level : Nat} : CoversFrom c (operation r ctx level) := by
  refine here (extended firstOperand fun first => .iterate (f := id) (fun left => .peek fun t => ?_) _)
  rcases level? ctx t with _ | ⟨operator, l⟩
  · exact .pure rfl
  · exact .ite (.pure rfl) (.read fun _ _ => .read fun right _ => .read fun _ _ => .built fun _ => .pure rfl)

omit hr in
theorem assigned (left : Tree) : Extends start left id (assigned r ctx start left) := by
  refine .peek fun t => ?_
  cases t with
  | mark m =>
    refine .ite ?_ (.pure rfl)
    cases targetOf? m left with
    | none => exact .failure
    | some target => exact .of_covers
  | _ => exact .pure rfl

omit hr in
theorem yielded : CoversFrom c (yielded r ctx) := by
  unfold Script.yielded
  exact here of_covers

theorem assignment : CoversFrom c (assignment r ctx) := by
  refine here (stays fun _ => ite yielded (takeWordBefore (by rw [if_pos rfl]; infer_instance) ?_))
  rw [if_neg Bool.false_ne_true]
  refine stays fun callsAsync => extended (hr.operation 0 ctx c) fun left => .peek fun _ => .ite .of_covers ?_
  exact .peek fun _ => .ite .of_covers (assigned left)

end CoversFrom

theorem covering_rules (n : Nat) : Covering (rules n) := by
  induction n with
  | zero => exact ⟨fun _ _ _ => .failure, fun _ _ => .failure⟩
  | succ n ih => exact ⟨fun _ _ _ => .operation, fun _ _ => .unary⟩

/-- An expression that is no list takes all the bytes that are read for it. -/
theorem coversFrom_assignment (n : Nat) : CoversFrom c (rules n .assignment ctx) := by
  cases n with
  | zero => exact .failure
  | succ n =>
    have := covering_rules n
    exact CoversFrom.assignment

end Relabel.Script
