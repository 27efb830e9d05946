import Relabel.Proofs.Script.Agreement
import Relabel.Script.Reader

/-!
# Where statements stand

A statement takes the bytes from its first token to the end of the last token that is read for it
(`span_of_run_statement`).
-/

namespace Relabel.Script
open Reading
variable {α β : Type} {start : Nat} {m : Reading α} {r : Rules} {ctx : Context} {position : Position} {c d : Cursor} {t : Tree}

/-- The tree that a step builds takes the bytes from `start` to the end of the last token that is read. -/
class Covers (start : Nat) (m : Reading Tree) : Prop where
  span : ∀ {c t d}, m.run c = some (t, d) → t.span = ⟨start, d.last⟩

namespace Covers

instance bind {k : α → Reading Tree} [h : ∀ a, Covers start (k a)] : Covers start (m >>= k) := by
  refine ⟨fun hrun => ?_⟩
  obtain ⟨a, c₁, -, hk⟩ := Agrees.run_bind hrun
  exact (h a).span hk

instance node (label : Label) (children : List Tree) : Covers start (Reading.node start label children) := by
  refine ⟨fun hrun => ?_⟩
  obtain ⟨rfl, rfl⟩ := Prod.mk.inj (Option.some.inj hrun)
  rfl

instance failure : Covers start (failure : Reading Tree) :=
  ⟨fun hrun => by cases hrun⟩

instance ite {φ : Prop} [Decidable φ] {x y : Reading Tree} [hx : Covers start x] [hy : Covers start y] :
    Covers start (if φ then x else y) := by
  split
  · exact hx
  · exact hy

/-! ### Statements behind their keyword -/

instance ifStatement : Covers start (ifStatement r ctx start) := by
  unfold Script.ifStatement
  infer_instance

instance whileStatement {keyword : String} : Covers start (whileStatement r ctx start keyword) := by
  unfold Script.whileStatement
  infer_instance

instance doStatement : Covers start (doStatement r ctx start) := by
  unfold Script.doStatement
  infer_instance

instance loopOver {keyword : String} {target : Tree} : Covers start (loopOver r ctx start keyword target) := by
  unfold Script.loopOver
  infer_instance

instance countedLoop {first : List Tree} : Covers start (countedLoop r ctx start first) := by
  unfold Script.countedLoop
  infer_instance

instance declaringLoop {isAwait : Bool} {kind : String} : Covers start (declaringLoop r ctx start isAwait kind) := by
  refine bind (h := fun _ => bind (h := fun _ => bind (h := fun declared => bind (h := fun keyword => ?_))))
  cases keyword <;> infer_instance

instance assigningLoop {isAwait : Bool} : Covers start (assigningLoop r ctx start isAwait) := by
  refine bind (h := fun _ => bind (h := fun first => bind (h := fun keyword => ?_)))
  cases keyword with
  | none => infer_instance
  | some keyword =>
    refine bind (h := fun _ => bind (h := fun _ => ?_))
    cases first.asPattern .plain <;> infer_instance

instance forStatement : Covers start (forStatement r ctx start) := by
  refine bind (h := fun _ => bind (h := fun _ => bind (h := fun _ => bind (h := fun isCounted => ?_))))
  split
  · infer_instance
  · refine bind (h := fun kind => ?_)
    cases kind <;> infer_instance

instance jump {keyword : String} : Covers start (jump ctx start keyword) := by
  unfold Script.jump
  infer_instance

instance returnStatement : Covers start (returnStatement r ctx start) := by
  unfold Script.returnStatement
  infer_instance

instance throwStatement : Covers start (throwStatement r ctx start) := by
  unfold Script.throwStatement
  infer_instance

instance switchStatement : Covers start (switchStatement r ctx start) := by
  unfold Script.switchStatement
  infer_instance

instance tryStatement : Covers start (tryStatement r ctx start) := by
  refine bind (h := fun body => bind (h := fun catches => ?_))
  extract_lets handled
  have hhandled (handler : List Tree) : Covers start (handled handler) := by
    unfold handled
    infer_instance
  infer_instance

instance classFrom {isNamed : Bool} {before : List Tree} : Covers start (classFrom r ctx start isNamed before) := by
  refine bind (h := fun _ => bind (h := fun isBraced => bind (h := fun isExtended => ?_)))
  extract_lets anonymous named
  have hnamed (name : List Tree) : Covers start (named name) := by
    unfold named
    infer_instance
  infer_instance

instance functionFrom {isAsync isNamed : Bool} {outer : Option Context} :
    Covers start (functionFrom r start isAsync isNamed outer) := by
  unfold Script.functionFrom
  infer_instance

/-! ### Imports and exports -/

instance importFrom : Covers start (importFrom ctx start) := by
  refine bind (h := fun token => ?_)
  extract_lets rest named
  have hrest (parts : List Tree) : Covers start (rest parts) := by
    unfold rest
    infer_instance
  have hnamed (given : List Tree) : Covers start (named given) := by
    unfold named
    infer_instance
  infer_instance

instance exportList : Covers start (exportList ctx start) := by
  refine bind (h := fun _ => bind (h := fun found => ?_))
  obtain ⟨names, _⟩ := found
  infer_instance

instance exportAll : Covers start (exportAll start) := by
  unfold Script.exportAll
  infer_instance

instance exportDefault {before : List Tree} : Covers start (exportDefault r ctx start before) := by
  unfold Script.exportDefault
  infer_instance

instance exportFrom {before : List Tree} : Covers start (exportFrom r ctx start before) := by
  unfold Script.exportFrom
  infer_instance

end Covers

/-! ### Statements -/

theorem eq_of_run_guard {φ : Prop} [Decidable φ] {u : Unit} (h : (guard φ : Reading Unit).run c = some (u, d)) : d = c := by
  by_cases hφ : φ
  · rw [guard, if_pos hφ] at h
    exact (Prod.mk.inj (Option.some.inj h)).2.symm
  · rw [guard, if_neg hφ] at h
    cases h

theorem exists_run_declarationKind? (c : Cursor) : ∃ kind, declarationKind?.run c = some (kind, c) := by
  have hite {b : Bool} {kind : String} {m : Reading (Option String)} (hm : ∃ kind, m.run c = some (kind, c)) :
      ∃ found, (if b = true then pure (some kind) else m : Reading (Option String)).run c = some (found, c) := by
    cases b with
    | true => exact ⟨some kind, rfl⟩
    | false => exact hm
  exact hite (hite (hite (hite (hite ⟨none, rfl⟩))))

/-- The tree that a step builds from a cursor takes the bytes from there to the end of the last token that is read. -/
def CoversFrom (c : Cursor) (m : Reading Tree) : Prop :=
  ∀ t d, m.run c = some (t, d) → t.span = ⟨c.start, d.last⟩

namespace CoversFrom
variable {k : α → Reading Tree} {a : α} {x y : Reading Tree}

theorem of_covers [h : Covers c.start x] : CoversFrom c x :=
  fun _ _ hrun => h.span hrun

/-- Looking ahead moves no cursor. -/
theorem peek (hm : m.run c = some (a, c)) (h : CoversFrom c (k a)) : CoversFrom c (m >>= k) := by
  intro t d hrun
  rw [StateT.run_bind, hm] at hrun
  exact h t d hrun

theorem guarded {φ : Prop} [Decidable φ] (h : CoversFrom c x) : CoversFrom c (guard φ >>= fun _ => x) := by
  intro t d hrun
  obtain ⟨_, c₁, hguard, hx⟩ := Agrees.run_bind hrun
  rw [eq_of_run_guard hguard] at hx
  exact h t d hx

theorem ite {φ : Prop} [Decidable φ] (hx : CoversFrom c x) (hy : CoversFrom c y) :
    CoversFrom c (if φ then x else y) := by
  split
  · exact hx
  · exact hy

theorem here {k : Nat → Reading Tree} (h : CoversFrom c (k c.start)) : CoversFrom c (here >>= k) :=
  peek (run_here c) h

theorem takeWord {word : String} {k : Bool → Reading Tree} (hyes : Covers c.start (k true)) (hno : CoversFrom c (k false)) :
    CoversFrom c (takeWord word >>= k) := by
  intro t d hrun
  rw [StateT.run_bind, run_takeWord] at hrun
  split at hrun
  · exact hyes.span hrun
  · exact hno t d hrun

theorem leaf (label : Label) : CoversFrom c (leaf label) := by
  unfold Reading.leaf
  exact here of_covers

theorem braced (label : Label) : CoversFrom c (braced r ctx label) := by
  unfold Script.braced
  exact here of_covers

theorem expressionStatement : CoversFrom c (expressionStatement r ctx) := by
  unfold Script.expressionStatement
  exact here of_covers

theorem functionDeclaration : CoversFrom c (functionDeclaration r ctx position) := by
  refine here fun t d hrun => ?_
  obtain ⟨isAsync, c₁, -, hrun⟩ := Agrees.run_bind hrun
  obtain ⟨t', c₂, hfunction, hrun⟩ := Agrees.run_bind hrun
  obtain ⟨_, c₃, hguard, hpure⟩ := Agrees.run_bind hrun
  obtain rfl := eq_of_run_guard hguard
  obtain ⟨rfl, rfl⟩ := Prod.mk.inj (Option.some.inj hpure)
  exact Covers.span hfunction

theorem keywordStatement (keyword : String) : CoversFrom c (keywordStatement r ctx position keyword) := by
  refine here ?_
  extract_lets after
  have hafter {x : Reading Tree} [Covers c.start x] : CoversFrom c (after x) := by
    unfold after
    exact of_covers
  split
  case h_13 => exact functionDeclaration
  case h_14 => exact guarded of_covers
  case h_15 => exact peek (run_seesWordBefore ..) (ite functionDeclaration expressionStatement)
  all_goals exact hafter

theorem declarationStatement (kind : String) : CoversFrom c (declarationStatement r ctx position kind) := by
  refine guarded (here fun t d hrun => ?_)
  obtain ⟨_, c₁, -, hrun⟩ := Agrees.run_bind hrun
  obtain ⟨declared, c₂, -, hrun⟩ := Agrees.run_bind hrun
  obtain ⟨_, c₃, -, hrun⟩ := Agrees.run_bind hrun
  obtain ⟨rfl, rfl⟩ := Prod.mk.inj (Option.some.inj hrun)
  rfl

theorem plainStatement : CoversFrom c (plainStatement r ctx position) := by
  obtain ⟨kind, hkind⟩ := exists_run_declarationKind? c
  refine here (peek hkind ?_)
  cases kind with
  | some kind => exact declarationStatement kind
  | none =>
    refine peek (run_token c) ?_
    split
    · exact keywordStatement _
    · exact ite (braced _) (ite (leaf _) (ite of_covers expressionStatement))
    · exact expressionStatement

theorem statement : CoversFrom c (statement r ctx position) := by
  refine here (peek (run_seesWordBefore ..) (ite (guarded of_covers) (takeWord ?_ ?_)))
  · rw [if_pos rfl]
    infer_instance
  · rw [if_neg Bool.false_ne_true]
    exact peek (run_sees ..) (ite of_covers plainStatement)

end CoversFrom

theorem span_of_run_statement {n : Nat} (h : (rules n (.statement position) ctx).run c = some (t, d)) :
    t.span = ⟨c.start, d.last⟩ := by
  cases n with
  | zero => cases h
  | succ n => exact CoversFrom.statement t d h

end Relabel.Script
