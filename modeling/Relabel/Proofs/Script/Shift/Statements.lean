import Relabel.Proofs.Script.Shift.Values
import Relabel.Script.Reader

/-!
# Statements on text that stands further back

Every rule for statements reads the same from text that stands further back, and so do the rules of the grammar closed
over themselves.
-/

namespace Relabel.Script
open Reading

namespace IsShift
variable {k : Move} {t t' : Tree} {kind : String}

instance mayLackValue [h : IsShift k t t'] : IsShift k (mayLackValue kind t) (mayLackValue kind t') := by
  have hlabel : t'.label = t.label := (IsShift.label (h := h)).eq_of_still
  rw [Script.mayLackValue, Script.mayLackValue, hlabel]
  infer_instance

instance admitsTarget [h : IsShift k t t'] : IsShift k (admitsTarget kind t) (admitsTarget kind t') := by
  have hlabel : t'.label = t.label := (IsShift.label (h := h)).eq_of_still
  rw [Script.admitsTarget, Script.admitsTarget, hlabel]
  infer_instance

instance countsWell [h : IsShift k t t'] : IsShift k (countsWell kind t) (countsWell kind t') := by
  rw [Script.countsWell, Script.countsWell]
  refine all (g := fun d => ?_)
  rw [show (Script.shifted k d).children = _ from Tree.children_shifted k d]
  match d.children with
  | [] => exact ⟨rfl⟩
  | [target] =>
    exact (inferInstance : IsShift k (Script.mayLackValue kind target)
      (Script.mayLackValue kind (Script.shifted k target)))
  | _ :: _ :: _ => exact ⟨rfl⟩

instance declaresOne [h : IsShift k t t'] : IsShift k (declaresOne t) (declaresOne t') := by
  obtain rfl := h.eq
  rw [Script.declaresOne, Script.declaresOne, show (Script.shifted k t).children = _ from Tree.children_shifted k t]
  match t.children with
  | [] => exact ⟨rfl⟩
  | [d] =>
    exact (inferInstance : IsShift k (decide (d.children.length = 1))
      (decide ((Script.shifted k d).children.length = 1)))
  | _ :: _ :: _ => exact ⟨rfl⟩

instance exportsOwn {ctx : Context} [h : IsShift k t t'] : IsShift k (exportsOwn ctx t) (exportsOwn ctx t') := by
  obtain rfl := h.eq
  rw [Script.exportsOwn, Script.exportsOwn, show (Script.shifted k t).children = _ from Tree.children_shifted k t]
  match t.children with
  | [] => exact ⟨rfl⟩
  | .node label span children :: _ => cases label <;> exact ⟨rfl⟩

end IsShift

variable {k : Move} {r r' : Rules} [h : ∀ goal ctx, Shifts k (r goal ctx) (r' goal ctx)] {ctx : Context}
  {start start' : Nat} [s : IsShift k start start'] {kind keyword : String} {place : DeclarationPlace}
  {position : Position}

/-! ### Declarations -/

instance shifts_declarator : Shifts k (declarator r ctx kind place) (declarator r' ctx kind place) := by
  unfold declarator
  infer_instance

instance shifts_declarationFrom :
    Shifts k (declarationFrom r ctx start kind place) (declarationFrom r' ctx start' kind place) := by
  unfold declarationFrom
  infer_instance

instance steady_isNameAt : Shifts.Steady isNameAt :=
  ⟨fun h => by rw [isNameAt, isNameAt, h.token, h.newline]⟩

instance steady_usesAt : Shifts.Steady usesAt :=
  ⟨fun h => by rw [usesAt, usesAt, h.token, h.newline, steady_isNameAt.eq h.next]⟩

instance steady_letDeclares : Shifts.Steady letDeclares :=
  ⟨fun h => by rw [letDeclares, letDeclares, h.token]⟩

instance shifts_declarationKind? : Shifts k declarationKind? declarationKind? := by
  unfold declarationKind?
  infer_instance

instance shifts_takeKind : Shifts k (takeKind kind) (takeKind kind) := by
  unfold takeKind
  infer_instance

/-! ### Branches and loops -/

instance shifts_condition : Shifts k (condition r ctx) (condition r' ctx) := by
  unfold condition
  infer_instance

instance shifts_dependent : Shifts k (dependent r ctx) (dependent r' ctx) :=
  h _ _

instance shifts_ifStatement : Shifts k (ifStatement r ctx start) (ifStatement r' ctx start') := by
  unfold ifStatement
  infer_instance

instance shifts_whileStatement :
    Shifts k (whileStatement r ctx start keyword) (whileStatement r' ctx start' keyword) := by
  unfold whileStatement
  infer_instance

instance shifts_doStatement : Shifts k (doStatement r ctx start) (doStatement r' ctx start') := by
  unfold doStatement
  infer_instance

instance shifts_loopOver {target target' : Tree} [ht : IsShift k target target'] :
    Shifts k (loopOver r ctx start keyword target) (loopOver r' ctx start' keyword target') := by
  unfold loopOver
  infer_instance

instance shifts_optionalBefore {mark : String} :
    Shifts k (optionalBefore r ctx mark) (optionalBefore r' ctx mark) := by
  unfold optionalBefore
  infer_instance

instance shifts_countedLoop {first first' : List Tree} [hf : IsShift k first first'] :
    Shifts k (countedLoop r ctx start first) (countedLoop r' ctx start' first') := by
  unfold countedLoop
  infer_instance

instance shifts_takeLoopWord : Shifts k takeLoopWord takeLoopWord := by
  unfold takeLoopWord
  infer_instance

instance shifts_declaringLoop {isAwait : Bool} :
    Shifts k (declaringLoop r ctx start isAwait kind) (declaringLoop r' ctx start' isAwait kind) := by
  refine .bind (g := fun inside => .bind_still (g := fun _ => .bind (g := fun declared =>
    .bind_still (g := fun word => ?_))))
  cases word <;> infer_instance

instance shifts_assigningLoop {isAwait : Bool} :
    Shifts k (assigningLoop r ctx start isAwait) (assigningLoop r' ctx start' isAwait) := by
  refine .bind_still (g := fun asyncOf => .bind (g := fun first => .bind_still (g := fun word => ?_)))
  cases word with
  | none => infer_instance
  | some word =>
    refine .bind_still (g := fun _ => .bind_still (h := ?_) (g := fun _ => shifts_asPattern fun target => ?_)) <;>
      infer_instance

instance shifts_forStatement : Shifts k (forStatement r ctx start) (forStatement r' ctx start') := by
  refine .bind_still (g := fun isAwait => .bind_still (g := fun _ => .bind_still (g := fun _ =>
    .bind_still (g := fun isCounted => .ite (q := .bind_still (g := fun declared => ?_))))))
  cases declared <;> infer_instance

/-! ### Jumps -/

instance shifts_jump : Shifts k (jump ctx start keyword) (jump ctx start' keyword) := by
  refine .bind_still (g := fun onLine => .bind_still (g := fun t => ?_))
  infer_instance

instance shifts_returnStatement : Shifts k (returnStatement r ctx start) (returnStatement r' ctx start') := by
  refine .bind_still (g := fun _ => .get_bind fun hc => ?_)
  rw [hc.token, hc.newline]
  infer_instance

instance shifts_throwStatement : Shifts k (throwStatement r ctx start) (throwStatement r' ctx start') := by
  unfold throwStatement
  infer_instance

/-! ### Choices and exceptions -/

instance shifts_switchCase : Shifts k (switchCase r ctx) (switchCase r' ctx) := by
  refine .bind (g := fun start => .bind_still (g := fun isCase => ?_))
  extract_lets body body'
  have hbody (test : List Tree) : Shifts k (body test) (body' (shifted k test)) :=
    .bind_still (g := fun _ => .bind (g := fun items => inferInstance))
  infer_instance

instance shifts_switchStatement : Shifts k (switchStatement r ctx start) (switchStatement r' ctx start') := by
  unfold switchStatement
  infer_instance

instance shifts_catchClause : Shifts k (catchClause r ctx) (catchClause r' ctx) := by
  refine .bind (g := fun start => .bind_still (g := fun _ => .bind_still (g := fun isNamed => ?_)))
  extract_lets block block'
  have hblock (caught : List Tree) : Shifts k (block caught) (block' (shifted k caught)) :=
    .bind (g := fun body => inferInstance)
  infer_instance

instance shifts_tryStatement : Shifts k (tryStatement r ctx start) (tryStatement r' ctx start') := by
  refine .bind (g := fun body => .bind_still (g := fun catches => ?_))
  extract_lets handled handled'
  have hhandled (handler : List Tree) : Shifts k (handled handler) (handled' (shifted k handler)) := by
    refine .bind (g := fun after => .bind_still (g := fun ends => ?_))
    extract_lets whole whole'
    have hwhole (finalizer : List Tree) : Shifts k (whole finalizer) (whole' (shifted k finalizer)) :=
      .bind_still (g := fun _ => inferInstance)
    infer_instance
  infer_instance

/-! ### Statements -/

instance shifts_expressionStatement : Shifts k (expressionStatement r ctx) (expressionStatement r' ctx) := by
  refine .bind (g := fun start => .get_bind fun hc => ?_)
  rw [hc.token, hc.next.token]
  infer_instance

instance shifts_functionDeclaration :
    Shifts k (functionDeclaration r ctx position) (functionDeclaration r' ctx position) := by
  unfold functionDeclaration
  infer_instance

instance shifts_keywordStatement :
    Shifts k (keywordStatement r ctx position keyword) (keywordStatement r' ctx position keyword) := by
  refine .bind (g := fun start => ?_)
  extract_lets after
  have hafter {x x' : Reading Tree} [hx : Shifts k x x'] : Shifts k (after x) (after x') :=
    .bind_still (g := fun _ => hx)
  split <;> infer_instance

instance shifts_declarationStatement :
    Shifts k (declarationStatement r ctx position kind) (declarationStatement r' ctx position kind) := by
  refine .bind_still (g := fun _ => .bind (g := fun start => .bind_still (g := fun _ => .bind (g := fun t =>
    .bind_still (g := fun _ => .get_bind fun hc => .pure (h := ?_))))))
  rw [hc.last]
  exact .node (g := .between (g := .shifted _))

instance shifts_plainStatement : Shifts k (plainStatement r ctx position) (plainStatement r' ctx position) := by
  refine .bind (g := fun start => .bind_still (g := fun declared => ?_))
  cases declared with
  | some kind => infer_instance
  | none =>
    refine .bind_still (g := fun t => ?_)
    cases t with
    | name keyword escaped => cases escaped <;> infer_instance
    | _ => infer_instance

/-! ### Imports and exports -/

instance shifts_exportName : Shifts k exportName exportName := by
  refine .bind_still (g := fun t => ?_)
  cases t <;> infer_instance

instance shifts_fromModule : Shifts k fromModule fromModule := by
  unfold fromModule
  infer_instance

instance shifts_moduleAttribute : Shifts k moduleAttribute moduleAttribute := by
  unfold moduleAttribute
  infer_instance

instance shifts_moduleAttributes : Shifts k moduleAttributes moduleAttributes := by
  unfold moduleAttributes
  infer_instance

instance shifts_importSpecifier : Shifts k (importSpecifier ctx) (importSpecifier ctx) := by
  refine .bind (g := fun start => .bind (g := fun given => .bind_still (g := fun renames => ?_)))
  rw [show (shifted k given).label = given.label from Tree.label_shifted k given]
  cases given.label <;> infer_instance

instance shifts_importAll : Shifts k (importAll ctx) (importAll ctx) := by
  unfold importAll
  infer_instance

instance shifts_importedNames : Shifts k (importedNames ctx) (importedNames ctx) := by
  unfold importedNames
  infer_instance

instance steady_isPhaseBefore : Shifts.Steady isPhaseBefore :=
  ⟨fun h => by rw [isPhaseBefore, isPhaseBefore, h.token, h.next.token]⟩

instance shifts_takePhase : Shifts k takePhase takePhase := by
  unfold takePhase
  infer_instance

instance shifts_importFrom : Shifts k (importFrom ctx start) (importFrom ctx start') := by
  refine .bind_still (g := fun t => ?_)
  extract_lets rest named rest' named'
  have hrest (parts : List Tree) : Shifts k (rest parts) (rest' (shifted k parts)) :=
    .bind (g := fun attributes => inferInstance)
  have hnamed (given : List Tree) : Shifts k (named given) (named' (shifted k given)) := by
    unfold named named'
    extract_lets behind first behind' first'
    have hbehind (others : List Tree) : Shifts k (behind others) (behind' (shifted k others)) :=
      .bind (g := fun source => inferInstance)
    infer_instance
  exact .ite (q := .bind_still (g := fun _ => .bind_still (g := fun u => inferInstance)))

instance shifts_exportSpecifier : Shifts k exportSpecifier exportSpecifier := by
  unfold exportSpecifier
  infer_instance

instance shifts_exportList : Shifts k (exportList ctx start) (exportList ctx start') := by
  refine .bind_still (g := fun _ => .bind_pair (g := fun names _ => .bind_still (g := fun isFrom => ?_)))
  extract_lets rest rest'
  have hrest (source : List Tree) : Shifts k (rest source) (rest' (shifted k source)) :=
    .bind_still (g := fun _ => inferInstance)
  infer_instance

instance shifts_exportedAs : Shifts k exportedAs exportedAs := by
  unfold exportedAs
  infer_instance

instance shifts_exportAll : Shifts k (exportAll start) (exportAll start') := by
  refine .bind_still (g := fun _ => .bind_still (g := fun isNamed => ?_))
  extract_lets rest rest'
  have hrest (given : List Tree) : Shifts k (rest given) (rest' (shifted k given)) :=
    .bind (g := fun source => inferInstance)
  infer_instance

instance shifts_exportDefault {before before' : List Tree} [hb : IsShift k before before'] :
    Shifts k (exportDefault r ctx start before) (exportDefault r' ctx start' before') := by
  refine .bind (g := fun inside => .bind_still (g := fun _ => .bind_still (g := fun _ => .bind_still (g := fun _ =>
    .bind_still (g := fun _ => ?_)))))
  infer_instance

instance shifts_exportFrom {before before' : List Tree} [hb : IsShift k before before'] :
    Shifts k (exportFrom r ctx start before) (exportFrom r' ctx start' before') := by
  refine .bind_still (g := fun _ => .ite (q := .ite (q := .bind_still (g := fun _ => .ite (q :=
    .bind_still (g := fun _ => .ite (q := .bind_still (g := fun kind => ?_))))))))
  infer_instance

instance steady_imports : Shifts.Steady fun c => c.token != .mark "(" && c.token != .mark "." :=
  ⟨fun h => by rw [h.token]⟩

instance shifts_statement : Shifts k (statement r ctx position) (statement r' ctx position) := by
  refine .bind (g := fun start => .bind_still (g := fun _ => .ite (q := .bind_still (g := fun _ => .ite (q :=
    .bind_still (g := fun _ => ?_))))))
  infer_instance

omit h in
/-- The rules of the grammar read the same from text that stands further back, to each depth of nesting, and there it
may be greater. -/
theorem shifts_rules {n n' : Nat} (hn : n ≤ n') (goal : Goal) (ctx : Context) :
    Shifts k (rules n goal ctx) (rules n' goal ctx) := by
  induction n generalizing n' goal ctx with
  | zero => exact .failure
  | succ n ih =>
    obtain ⟨n', rfl⟩ : ∃ m, n' = m + 1 := ⟨n' - 1, by omega⟩
    have hr (goal : Goal) (ctx : Context) : Shifts k (rules n goal ctx) (rules n' goal ctx) :=
      ih (Nat.le_of_succ_le_succ hn) goal ctx
    cases goal with
    | statement position => exact shifts_statement
    | expression => exact shifts_expression
    | assignment => exact shifts_assignment
    | operation level => exact shifts_operation
    | unary => exact shifts_unary
    | access reach => exact shifts_access
    | binding => exact shifts_binding

end Relabel.Script
