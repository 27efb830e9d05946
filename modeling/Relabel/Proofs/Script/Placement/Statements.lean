import Relabel.Proofs.Script.Placement.Values
import Relabel.Proofs.Script.Rules.Expressions

/-!
# Where statements stand

Every rule for statements builds trees that lie where it reads, if the rules it asks do, and so do the rules of the
grammar closed over themselves.
-/

namespace Relabel.Script
open Reading
variable {cs : List Char} {lo : Nat} {r : Rules} [hr : Placed cs r] {ctx : Context} {position : Position} {begun : Bool}
  {start : Nat} {ts : List Tree}

/-! ### Declarations -/

instance yields_declarator {kind : String} {place : DeclarationPlace} :
    Yields cs true List.singleton (declarator r ctx kind place) := by
  refine ⟨.skip fun _ => .read fun target => .skip fun _ => .skip fun _ => .ite (.read fun _ => .node _ _) ?_⟩
  exact .skip fun _ => .node _ .declarator

instance yields_declarationFrom {kind : String} {place : DeclarationPlace} :
    Yields cs true List.singleton (declarationFrom r ctx start kind place) := by
  refine ⟨.read fun first => .bind (.iterate (f := List.reverse) (fun items => ?_) [first]) fun _ => .node _ _⟩
  refine .skip fun _ => .ite (.read fun t => ?_) (.pure rfl)
  exact .pure List.reverse_cons

instance moves_declarationKind? : Moves cs false declarationKind? := by
  unfold declarationKind?
  infer_instance

instance moves_takeKind {kind : String} : Moves cs true (takeKind kind) := by
  unfold takeKind
  infer_instance

/-! ### Branches and loops -/

instance yields_condition : Yields cs true List.singleton (condition r ctx) :=
  ⟨.skip fun _ => .read fun _ => .skip fun _ => .pure rfl⟩

instance yields_dependent : Yields cs true List.singleton (dependent r ctx) :=
  yields_rule

theorem lays_ifStatement : Lays cs lo begun true [] List.singleton (ifStatement r ctx start) := by
  refine .unbegun (.read fun test => .read fun yes => .skip fun _ => ?_)
  extract_lets rest
  have hrest (no : List Tree) : Lays cs lo true true ([test, yes] ++ no) List.singleton (rest no) :=
    .node _ (.statement "if")
  exact .ite (.read fun _ => .give (hrest _)) (.give (hrest _))

theorem lays_whileStatement {keyword : String} :
    Lays cs lo begun true [] List.singleton (whileStatement r ctx start keyword) :=
  .unbegun (.read fun _ => .read fun _ => .node _ _)

theorem lays_doStatement : Lays cs lo begun true [] List.singleton (doStatement r ctx start) :=
  .unbegun (.read fun _ => .skip fun _ => .read fun _ => .skip fun _ => .node _ _)

theorem lays_loopOver {keyword : String} {target : Tree} :
    Lays cs lo true true [target] List.singleton (loopOver r ctx start keyword target) :=
  .read fun _ => .skip fun _ => .read fun _ => .node _ _

instance yields_optionalBefore {mark : String} : Yields cs false id (optionalBefore r ctx mark) :=
  ⟨.skip fun _ => .ite (.pure rfl) (.read fun _ => .skip fun _ => .pure rfl)⟩

theorem lays_countedLoop {first : List Tree} :
    Lays cs lo true true first List.singleton (countedLoop r ctx start first) :=
  .skip fun _ => .read fun _ => .read fun _ => .read fun _ => .node _ _

instance moves_takeLoopWord : Moves cs false takeLoopWord := by
  unfold takeLoopWord
  infer_instance

theorem lays_declaringLoop {isAwait : Bool} {kind : String} :
    Lays cs lo true true [] List.singleton (declaringLoop r ctx start isAwait kind) := by
  refine .skip fun _ => .skip fun _ => .read fun declared => .skip fun keyword => ?_
  cases keyword with
  | some keyword => exact .skip fun _ => lays_loopOver
  | none => exact .skip fun _ => lays_countedLoop

theorem lays_assigningLoop {isAwait : Bool} :
    Lays cs lo true true [] List.singleton (assigningLoop r ctx start isAwait) := by
  refine .skip fun _ => .read fun first => .skip fun keyword => ?_
  cases keyword with
  | none => exact .skip fun _ => lays_countedLoop
  | some keyword =>
    refine .skip fun _ => .skip fun _ => ?_
    cases h : first.asPattern .plain with
    | none => exact .failure
    | some target =>
      exact .changeTree (fun hfirst => hfirst.asPattern h) lays_loopOver

theorem lays_forStatement : Lays cs lo true true [] List.singleton (forStatement r ctx start) := by
  refine .skip fun _ => .skip fun _ => .skip fun _ => .skip fun _ => .ite (.skip fun _ => lays_countedLoop) ?_
  refine .skip fun kind => ?_
  cases kind with
  | some kind => exact lays_declaringLoop
  | none => exact lays_assigningLoop

/-! ### Jumps -/

theorem lays_jump {keyword : String} : Lays cs lo true true [] List.singleton (jump ctx start keyword) := by
  refine .skip fun _ => .skip fun _ => ?_
  extract_lets named rest
  have hrest (target : List Tree) : Lays cs lo true true target List.singleton (rest target) :=
    .skip fun _ => .node _ (.statement keyword)
  exact .ite (.read fun _ => .give (hrest _)) (.give (hrest _))

theorem lays_returnStatement : Lays cs lo true true [] List.singleton (returnStatement r ctx start) := by
  refine .skip fun _ => .skip fun c => ?_
  extract_lets ends rest
  have hrest (value : List Tree) : Lays cs lo true true value List.singleton (rest value) :=
    .skip fun _ => .node _ (.statement "return")
  exact .ite (.give (hrest _)) (.read fun _ => .give (hrest _))

theorem lays_throwStatement : Lays cs lo true true [] List.singleton (throwStatement r ctx start) :=
  .skip fun _ => .skip fun _ => .read fun _ => .skip fun _ => .node _ _

/-! ### Choices and exceptions -/

instance yields_switchCase : Yields cs true List.singleton (switchCase r ctx) := by
  refine ⟨fun {lo} => .skip fun _ => .skip fun isCase => ?_⟩
  extract_lets body
  have hbody (test : List Tree) : Lays cs lo true true test List.singleton (body test) := by
    have hstatements (lo : Nat) : Lays cs lo false false [] List.reverse (iterate (fun (items : List Tree) => do
        if (← seesWord "case") || (← seesWord "default") || (← sees closeBrace) then return none
        else return some ((← r (.statement .list) ctx) :: items)) []) := by
      refine .iterate (f := List.reverse) (fun items => ?_) []
      refine .skip fun _ => .skip fun _ => .skip fun _ => .ite (.pure rfl) (.read fun t => ?_)
      exact .pure List.reverse_cons
    exact .skip fun _ => .bind (.frame hstatements) fun _ => .node _ (.clause _)
  exact .ite (.read fun _ => .give (hbody _)) (.skip fun _ => .give (hbody _))

theorem lays_switchStatement : Lays cs lo true true [] List.singleton (switchStatement r ctx start) :=
  .read fun _ => .skip fun _ => .read fun _ => .node _ _

instance yields_block : Yields cs true List.singleton (braced r ctx .block) :=
  yields_braced .block

instance yields_catchClause : Yields cs true List.singleton (catchClause r ctx) := by
  refine ⟨fun {lo} => .skip fun _ => .skip fun _ => .skip fun _ => ?_⟩
  extract_lets rest
  have hrest (caught : List Tree) : Lays cs lo true true caught List.singleton (rest caught) :=
    .read fun _ => .node _ (.clause "catch")
  exact .ite (.read fun _ => .skip fun _ => .give (hrest _)) (.give (hrest _))

theorem lays_tryStatement : Lays cs lo true true [] List.singleton (tryStatement r ctx start) := by
  refine .read fun body => .skip fun _ => ?_
  extract_lets handled
  have hhandled (handler : List Tree) : Lays cs lo true true ([body] ++ handler) List.singleton (handled handler) := by
    refine .skip fun _ => .skip fun _ => ?_
    extract_lets rest
    have hrest (finalizer : List Tree) :
        Lays cs lo true true ([body] ++ handler ++ finalizer) List.singleton (rest finalizer) := 
      .skip fun _ => .node _ (.statement "try")
    refine .ite (.read fun block => .nodeOf _ (.clause "finally") fun _ => .give (hrest _)) (.give (hrest _))
  exact .ite (.read fun _ => .give (hhandled _)) (.give (hhandled _))

/-! ### Statements -/

instance yields_expressionStatement : Yields cs true List.singleton (expressionStatement r ctx) := by
  refine ⟨.here fun hstart => .skip fun c => .ite ?_ ?_⟩
  · exact .read fun _ => .skip fun _ => .read fun _ => .node _ _
  · refine .read fun _ => .skip fun _ => ?_
    exact .nodeFrom hstart .expressionStatement

instance yields_functionDeclaration : Yields cs true List.singleton (functionDeclaration r ctx position) :=
  ⟨.skip fun _ => .skip fun _ => .read fun _ => .skip fun _ => .pure rfl⟩

instance yields_keywordStatement {keyword : String} :
    Yields cs true List.singleton (keywordStatement r ctx position keyword) := by
  refine ⟨fun {lo} => .skip fun start => ?_⟩
  extract_lets after
  have hafter {rest : Reading Tree} (h : Lays cs lo true true [] List.singleton rest) :
      Lays cs lo false true [] List.singleton (after rest) :=
    .skip fun _ => h
  split
  case h_1 => exact hafter lays_ifStatement
  case h_2 => exact hafter lays_forStatement
  case h_3 => exact hafter lays_whileStatement
  case h_4 => exact hafter lays_whileStatement
  case h_5 => exact hafter lays_doStatement
  case h_6 => exact hafter lays_jump
  case h_7 => exact hafter lays_jump
  case h_8 => exact hafter lays_returnStatement
  case h_9 => exact hafter lays_throwStatement
  case h_10 => exact hafter lays_switchStatement
  case h_11 => exact hafter lays_tryStatement
  case h_12 => exact hafter (.skip fun _ => .node _ _)
  case h_13 => exact yields_functionDeclaration.lays
  case h_14 => exact .skip fun _ => lays_classFrom
  case h_15 => exact .skip fun _ => .ite yields_functionDeclaration.lays yields_expressionStatement.lays

instance yields_declarationStatement {kind : String} :
    Yields cs true List.singleton (declarationStatement r ctx position kind) := by
  refine ⟨.skip fun _ => .here fun hstart => .skip fun _ => .read fun t => .skip fun _ => ?_⟩
  exact .change (fun _ _ h => (allLie_singleton.1 h).children) (.nodeFrom hstart t.label)

instance yields_plainStatement : Yields cs true List.singleton (plainStatement r ctx position) := by
  refine ⟨.skip fun _ => .skip fun kind => ?_⟩
  cases kind with
  | some kind => exact yields_declarationStatement.lays
  | none =>
    refine .skip fun t => ?_
    split
    · exact yields_keywordStatement.lays
    · refine .ite yields_block.lays (.ite (yields_leaf _).lays (.ite (.skip fun _ => .read fun _ => lays_classFrom)
        yields_expressionStatement.lays))
    · exact yields_expressionStatement.lays

/-! ### Imports and exports -/

instance yields_exportName : Yields cs true List.singleton exportName := by
  refine ⟨.skip fun t => ?_⟩
  cases t with
  | name text escaped => exact (yields_leaf _).lays
  | _ => exact yields_stringLiteral.lays

instance yields_fromModule : Yields cs true id fromModule :=
  ⟨.skip fun _ => .skip fun _ => .read fun _ => .bind (.node _ (.clause "from")) fun _ => .pure rfl⟩

instance yields_moduleAttribute : Yields cs true List.singleton moduleAttribute :=
  ⟨.skip fun _ => .read fun _ => .skip fun _ => .read fun _ => .node _ _⟩

instance yields_moduleAttributes : Yields cs false id moduleAttributes := by
  refine ⟨.skip fun _ => .skip fun _ => .skip fun _ => .ite (.skip fun _ => .skip fun _ => .read fun _ => ?_) (.pure rfl)⟩
  exact .pure rfl

instance yields_importSpecifier : Yields cs true List.singleton (importSpecifier ctx) := by
  refine ⟨.skip fun _ => .read fun given => .skip fun _ => .ite (.read fun _ => .node _ _) ?_⟩
  split
  · next text _ =>
    have hreference {lo hi : Nat} (h : given.Lies cs lo hi) : (Tree.node (.identifier text) given.span []).Lies cs lo hi :=
      Tree.lies_node nofun h.le
    exact .skip fun _ => .changeTree hreference (.node _ .specifier)
  · exact .failure

instance yields_importAll : Yields cs true List.singleton (importAll ctx) :=
  ⟨.skip fun _ => .skip fun _ => .skip fun _ => .read fun _ => .node _ _⟩

instance yields_importedNames : Yields cs true id (importedNames ctx) :=
  ⟨.skip fun _ => .ite (.read fun _ => .pure rfl) (.skip fun _ => .read fun _ => .pure rfl)⟩

instance moves_takePhase : Moves cs false takePhase := by
  unfold takePhase
  infer_instance

theorem lays_importFrom : Lays cs lo true true [] List.singleton (importFrom ctx start) := by
  refine .skip fun token => ?_
  extract_lets rest named
  have hrest (parts : List Tree) : Lays cs lo true true parts List.singleton (rest parts) :=
    .read fun _ => .skip fun _ => .node _ (.statement "import")
  have hnamed (given : List Tree) : Lays cs lo true true given List.singleton (named given) := by
    have hothers (others : List Tree) : Lays cs lo true true (given ++ others) List.singleton (do
        let source ← fromModule
        let parts ← pure (given ++ others ++ source)
        rest parts) :=
      .read fun _ => .give (hrest _)
    have hmore (more : Bool) : Lays cs lo true true given List.singleton (if more then do
        let others ← importedNames ctx
        let source ← fromModule
        let parts ← pure (given ++ others ++ source)
        rest parts
      else do
        let others ← pure []
        let source ← fromModule
        let parts ← pure (given ++ others ++ source)
        rest parts) :=
      .ite (.read hothers) (.give (hothers _))
    exact .ite (.give (hmore _)) (.skip hmore)
  exact .ite (.read fun _ => .give (hrest _)) (.skip fun _ => .skip fun _ =>
    .ite (.read fun _ => .give (hnamed _)) (.give (hnamed _)))

instance yields_exportSpecifier : Yields cs true List.singleton exportSpecifier := 
  ⟨.skip fun _ => .read fun _ => .skip fun _ => .ite (.read fun _ => .node _ _) (.node _ _)⟩

theorem lays_exportList : Lays cs lo true true [] List.singleton (exportList ctx start) := by
  refine .skip fun _ => .read fun found => .skip fun _ => ?_
  obtain ⟨names, trailing⟩ := found
  extract_lets rest
  have hrest (source : List Tree) : Lays cs lo true true (names ++ source) List.singleton (rest source) := by
    refine .skip fun _ => ?_
    extract_lets rest
    have hrest (attributes : List Tree) :
        Lays cs lo true true (names ++ source ++ attributes) List.singleton (rest attributes) :=
      .skip fun _ => .node _ (.statement "export")
    exact .ite (.give (hrest _)) (.read fun _ => hrest _)
  exact .ite (.read fun _ => hrest _) (.give (hrest _))

instance yields_exportedAs : Yields cs true List.singleton exportedAs :=
  ⟨.skip fun _ => .read fun _ => .node _ _⟩

theorem lays_exportAll : Lays cs lo true true [] List.singleton (exportAll start) := by
  refine .skip fun _ => .skip fun _ => ?_
  extract_lets rest
  have hrest (given : List Tree) : Lays cs lo true true given List.singleton (rest given) :=
    .read fun _ => .read fun _ => .skip fun _ => .node _ (.statement "export")
  exact .ite (.read fun _ => .give (hrest _)) (.give (hrest _))

theorem lays_exportDefault {before : List Tree} :
    Lays cs lo true true before List.singleton (exportDefault r ctx start before) := by
  refine .skip fun _ => .skip fun _ => .skip fun _ => ?_
  extract_lets rest
  have hrest (value : Tree) : Lays cs lo true true [value] List.singleton (rest value) :=
    .node _ (.statement "export default")
  refine .skip fun _ => .skip fun _ => .ite (.forget (.read hrest)) (.ite (.forget (.read hrest)) (.ite ?_ ?_))
  · exact .read fun more => .bind lays_classFrom.unbegun hrest
  · exact .forget (.read fun _ => .skip fun _ => .give (hrest _))

theorem lays_exportFrom {before : List Tree} :
    Lays cs lo true true before List.singleton (exportFrom r ctx start before) := by
  refine .skip fun _ => .ite lays_exportDefault (.ite ?_ (.forget ?_))
  · exact .skip fun _ => .bind lays_classFrom.unbegun fun _ => .node _ _
  · refine .skip fun _ => .ite lays_exportList (.skip fun _ => .ite lays_exportAll ?_)
    refine .skip fun kind => ?_
    extract_lets declares
    refine .skip fun _ => .skip fun _ => .skip fun _ => .skip fun _ => .skip fun _ => .read fun _ => .node _ _

instance yields_statement : Yields cs true List.singleton (statement r ctx position) := by
  refine ⟨.skip fun _ => .skip fun _ => .ite (.skip fun _ => .skip fun _ => lays_importFrom) ?_⟩
  refine .takeWord (.skip fun _ => lays_exportFrom) (.skip fun _ => .ite (.read fun before => ?_) yields_plainStatement.lays)
  exact .takeWord lays_exportFrom lays_classFrom

omit hr in
/-- The rules of the grammar build trees that lie where they read, to each depth of nesting. -/
theorem placed_rules (cs : List Char) (n : Nat) : Placed cs (rules n) := by
  refine ⟨?_, fun _ _ => coversFrom_assignment n⟩
  induction n with
  | zero => exact fun _ _ => ⟨.failure⟩
  | succ n ih =>
    have hr : Placed cs (rules n) := ⟨ih, fun _ _ => coversFrom_assignment n⟩
    intro goal ctx
    cases goal with
    | statement position => exact yields_statement
    | expression => exact yields_expression
    | assignment => exact yields_assignment
    | operation level => exact yields_operation
    | unary => exact yields_unary
    | access reach => exact yields_access
    | binding => exact yields_binding

/-! ### Programs -/

omit hr in
theorem lays_program : Lays cs lo false false [] Tree.children program := by
  refine .skip fun c => ?_
  extract_lets depth
  have hr := placed_rules cs depth
  refine .bind (.iterate (f := List.reverse) (fun items => ?_) []) fun items => .skip fun _ => .pure rfl
  refine .skip fun _ => .ite (.pure rfl) (.read fun t => ?_)
  exact .pure List.reverse_cons

omit hr in
/-- The statements of a program lie in its text. -/
theorem exists_allLie_of_read? {text : String} {tree : Tree} (h : read? text = some tree) :
    ∃ hi, AllLie text.toList 0 hi tree.children := by
  simp only [read?, Option.bind_eq_bind, Option.bind_eq_some_iff, Option.guard_eq_some', Option.pure_def,
    Option.some.injEq] at h
  obtain ⟨⟨t, d⟩, hrun, -, -, rfl⟩ := h
  obtain ⟨-, -, hlies | ⟨-, hnil, -⟩⟩ :=
    lays_program.run (Cursor.on_first text.toList) (.inr ⟨rfl, rfl, Nat.zero_le _⟩) hrun
  · exact ⟨d.last, hlies⟩
  · exact ⟨0, hnil ▸ Nat.le_refl 0⟩

end Relabel.Script
