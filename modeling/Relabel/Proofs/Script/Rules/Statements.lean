import Relabel.Proofs.Script.Rules.Values
import Relabel.Script.Reader

/-!
# Statements in front of another line

Every rule for statements agrees with itself in front of another line, and so do the rules of the grammar
closed over themselves.
-/

namespace Relabel.Script
open Reading
namespace Agrees
variable {s : Sequel} {r r' : Rules} [hr : ∀ goal ctx, Needs s (r goal ctx) (r' goal ctx)] {ctx : Context}
  {start : Nat}

/-! ### Declarations -/

theorem respects_isNameAt : Respects s isNameAt := by
  refine ⟨fun _ _ _ _ => rfl, fun c last hc => ?_⟩
  rcases s.entry_token last with h | ⟨_, -, h⟩ <;> simp [isNameAt, h, hc]

theorem respects_usesAt : Respects s usesAt := by
  refine ⟨fun c hin _ hc => ?_, fun c last hc => by simp [usesAt, hc]⟩
  by_cases h : c.token = .name "using" false
  · rw [usesAt, respects_isNameAt.next hin hc h]
    rfl
  · rw [usesAt, usesAt, show (s.longer c).token = c.token from rfl, beq_false_of_ne h]
    rfl

theorem respects_letDeclares : Respects s letDeclares := by
  refine ⟨fun _ _ _ _ => rfl, fun c last hc => ?_⟩
  rcases s.entry_token last with h | h
  · simp [letDeclares, h, hc]
  · have hin := h.ne_word (w := "in") (by decide)
    have hinstanceof := h.ne_word (w := "instanceof") (by decide)
    obtain ⟨_, -, h⟩ := h
    rw [h] at hin hinstanceof
    simpa [letDeclares, h, hc] using And.intro hin hinstanceof

/-- Where a declaration or something else has to follow. -/
theorem declarationKind?_needs {β : Type} {k k' : Option String → Reading β}
    (hyes : ∀ kind word, Agrees s (· = .name word false) (fun _ => False) (k (some kind)) (k' (some kind)))
    (hno : Needs s (k none) (k' none)) : Needs s (declarationKind? >>= k) (declarationKind? >>= k') := by
  rw [declarationKind?]
  iterate 2
    rw [bind_assoc, bind_assoc]
    refine seesWord_needs ?_ ?_
    · exact hyes _ _
    rw [if_neg Bool.false_ne_true]
  rw [bind_assoc, bind_assoc]
  refine seesWordBefore_needs respects_letDeclares ?_ ?_
  · exact hyes _ _
  rw [if_neg Bool.false_ne_true, bind_assoc, bind_assoc]
  refine seesWordBefore_needs respects_isNameAt ?_ ?_
  · exact hyes _ _
  rw [if_neg Bool.false_ne_true, bind_assoc, bind_assoc]
  refine seesWordBefore_needs respects_usesAt ?_ ?_
  · exact hyes _ _
  · exact hno

instance needs_declarator {kind : String} {place : DeclarationPlace} :
    Needs s (declarator r ctx kind place) (declarator r' ctx kind place) := by
  unfold declarator
  infer_instance

instance needs_declarationFrom {kind : String} {place : DeclarationPlace} :
    Needs s (declarationFrom r ctx start kind place) (declarationFrom r' ctx start kind place) := by
  unfold declarationFrom
  infer_instance

theorem takeKind_agrees (kind word : String) :
    Agrees s (· = .name word false) (fun _ => False) (takeKind kind) (takeKind kind) :=
  (advance (fun h => by cases h) fun h => by cases h).after fun _ => inferInstance

/-! ### Branches and loops -/

instance needs_condition : Needs s (condition r ctx) (condition r' ctx) := by
  unfold condition
  infer_instance

instance needs_dependent : Needs s (dependent r ctx) (dependent r' ctx) :=
  hr _ _

instance needs_ifStatement : Needs s (ifStatement r ctx start) (ifStatement r' ctx start) := by
  have helse := keeps_takeWord (s := s) "else" (by decide)
  unfold ifStatement
  infer_instance

instance needs_whileStatement {keyword : String} :
    Needs s (whileStatement r ctx start keyword) (whileStatement r' ctx start keyword) := by
  unfold whileStatement
  infer_instance

instance needs_doStatement : Needs s (doStatement r ctx start) (doStatement r' ctx start) := by
  unfold doStatement
  infer_instance

instance needs_loopOver {keyword : String} {target : Tree} :
    Needs s (loopOver r ctx start keyword target) (loopOver r' ctx start keyword target) := by
  unfold loopOver
  infer_instance

instance keeps_optionalBefore {mark : String} : Needs s (optionalBefore r ctx mark) (optionalBefore r' ctx mark) := by
  unfold optionalBefore
  infer_instance

instance needs_countedLoop {first : List Tree} :
    Needs s (countedLoop r ctx start first) (countedLoop r' ctx start first) := by
  unfold countedLoop
  infer_instance

instance keeps_takeLoopWord : Keeps s takeLoopWord takeLoopWord := by
  have hof := keeps_takeWord (s := s) "of" (by decide)
  have hin := keeps_takeWord (s := s) "in" (by decide)
  unfold takeLoopWord
  infer_instance

theorem declaringLoop_agrees (isAwait : Bool) (kind word : String) :
    Agrees s (· = .name word false) (fun _ => False) (declaringLoop r ctx start isAwait kind)
      (declaringLoop r' ctx start isAwait kind) := by
  refine here_bind (fun inside => ?_) nofun
  refine ((takeKind_agrees kind word).mono (fun _ h => h.1) fun _ h => h).after fun _ => ?_
  refine .before inferInstance fun declared => .before inferInstance fun keyword => ?_
  cases keyword <;> infer_instance

instance needs_assigningLoop {isAwait : Bool} :
    Needs s (assigningLoop r ctx start isAwait) (assigningLoop r' ctx start isAwait) := by
  have hof : Respects s fun c => c.token == .name "of" false :=
    .of_token (g := (· == .name "of" false)) fun _ ht => ht.beq_word (by decide)
  have hasync := keeps_seesWordBefore (s := s) "async" (by decide) hof
  refine .before hasync fun asyncOf => after inferInstance fun first => .before inferInstance fun keyword => ?_
  cases keyword with
  | none => infer_instance
  | some keyword =>
    refine guard_bind (h := guard_bind (h := ?_))
    rcases first.asPattern .plain with _ | target <;> infer_instance

instance needs_forStatement : Needs s (forStatement r ctx start) (forStatement r' ctx start) := by
  have hawait := keeps_takeWord (s := s) "await" (by decide)
  refine .before hawait fun isAwait => .before inferInstance fun _ => after inferInstance fun _ => ?_
  refine .before inferInstance fun isCounted => branch inferInstance (keeps_of_needs (h := ?_))
  exact declarationKind?_needs (declaringLoop_agrees isAwait) inferInstance

/-! ### Jumps -/

/-- A label stands on the line of its jump. -/
instance keeps_jump {keyword : String} : Keeps s (jump ctx start keyword) (jump ctx start keyword) := by
  refine onSameLine_bind (fun b => token_bind (fun t _ => of_keeps inferInstance) fun h => absurd rfl h.2) fun _ b => ?_
  refine token_bind (fun t ht => ?_) fun _ _ _ => ?_
  · subst ht
    simp only [Bool.and_false, Bool.false_eq_true, if_false]
    exact of_keeps inferInstance
  · simp only [Bool.and_false, Bool.false_and, Bool.false_eq_true, if_false]
    exact of_keeps inferInstance

instance keeps_returnStatement : Keeps s (returnStatement r ctx start) (returnStatement r' ctx start) := by
  refine guard_bind (h := peek (v := id) (fun _ => rfl) (fun c _ _ => of_keeps inferInstance)
    (fun c _ _ _ _ => of_keeps (branch_iff .rfl inferInstance inferInstance)) fun c last hc _ => of_keeps ?_)
  -- it returns nothing at the end of the program, and nothing from the other line
  simp only [id, hc, Sequel.entry_newline, Bool.true_or, List.contains_cons, beq_self_eq_true, Bool.or_true, if_true]
  infer_instance

instance needs_throwStatement : Needs s (throwStatement r ctx start) (throwStatement r' ctx start) := by
  unfold throwStatement
  infer_instance

/-! ### Choices and exceptions -/

instance needs_switchCase : Needs s (switchCase r ctx) (switchCase r' ctx) := by
  have hcase := keeps_seesWord (s := s) "case" (by decide)
  have hdefault := keeps_seesWord (s := s) "default" (by decide)
  have htake := keeps_takeWord (s := s) "case" (by decide)
  refine needs_here_bind (h := fun start => .before htake fun isCase => ?_)
  extract_lets body body'
  have hbody (test : List Tree) : Keeps s (body test) (body' test) :=
    .before inferInstance fun _ => .before inferInstance fun _ => inferInstance
  infer_instance

instance needs_switchStatement : Needs s (switchStatement r ctx start) (switchStatement r' ctx start) := by
  unfold switchStatement
  infer_instance

instance needs_catchClause : Needs s (catchClause r ctx) (catchClause r' ctx) := by
  unfold catchClause
  infer_instance

instance needs_tryStatement : Needs s (tryStatement r ctx start) (tryStatement r' ctx start) := by
  have hcatch := keeps_seesWord (s := s) "catch" (by decide)
  have hfinally := keeps_takeWord (s := s) "finally" (by decide)
  refine after inferInstance fun body => .before hcatch fun catches => ?_
  extract_lets handled handled'
  have hhandled (handler : List Tree) : Keeps s (handled handler) (handled' handler) := by
    refine here_bind (fun after => of_keeps ?_) fun _ after after' => ?_
    · exact .before hfinally fun ends => inferInstance
    · exact takeWord_atEnd (by decide) (of_keeps inferInstance)
  infer_instance

/-! ### Statements -/

/-- A name and a colon are a label. -/
instance needs_expressionStatement : Needs s (expressionStatement r ctx) (expressionStatement r' ctx) := by
  have hcolon : Respects s fun c => c.token == .mark ":" :=
    .of_token (g := (· == .mark ":")) fun _ ht => ht.beq_mark
  refine needs_here_bind (h := fun start => peek_needs (v := id) (fun _ => rfl) (fun c => inferInstance)
    fun c hin hc => branch_iff ?_ inferInstance inferInstance)
  rw [id, id, show (s.longer c).token = c.token from rfl]
  cases h : c.token with
  | name word escaped => rw [hcolon.next hin hc h]
  | _ => rfl

instance needs_functionDeclaration {position : Position} :
    Needs s (functionDeclaration r ctx position) (functionDeclaration r' ctx position) := by
  have hasync := keeps_takeWordBefore (s := s) "async" (by decide) respects_beginsFunction
  unfold functionDeclaration
  infer_instance

theorem keywordStatement_agrees (position : Position) (keyword : String) :
    Agrees s (· = .name keyword false) (fun _ => False) (keywordStatement r ctx position keyword)
      (keywordStatement r' ctx position keyword) := by
  refine here_bind (fun start => ?_) nofun
  extract_lets statementAfter
  have hafter {rest rest' : Reading Tree} (h : Keeps s rest rest') :
      Agrees s (fun t => t = .name keyword false ∧ t ≠ .stop) (fun _ => False) (statementAfter rest)
        (statementAfter rest') :=
    (advance (fun h => by cases h.1) fun h => by cases h.1).after fun _ => h
  have hasync := keeps_seesWordBefore (s := s) "async" (by decide) respects_beginsFunction
  split
  case h_13 => infer_instance
  case h_14 => infer_instance
  case h_15 => infer_instance
  all_goals exact hafter inferInstance

theorem declarationStatement_agrees (position : Position) (kind word : String) :
    Agrees s (· = .name word false) (fun _ => False) (declarationStatement r ctx position kind)
      (declarationStatement r' ctx position kind) := by
  refine guard_bind (h := here_bind (fun start => ?_) nofun)
  refine ((takeKind_agrees kind word).mono (fun _ h => h.1) fun _ h => h).after fun _ => ?_
  exact .before inferInstance fun t => .before inferInstance fun _ => keeps_node start t.label t.children

instance needs_plainStatement {position : Position} :
    Needs s (plainStatement r ctx position) (plainStatement r' ctx position) := by
  refine needs_here_bind (h := fun start => declarationKind?_needs (fun kind word => ?_) ?_)
  · exact declarationStatement_agrees position kind word
  · refine token_needs fun t => ?_
    cases t with
    | name keyword escaped =>
      cases escaped with
      | false => exact keywordStatement_agrees position keyword
      | true => infer_instance
    | mark m => 
      exact branch inferInstance (branch (leaf _ nofun nofun) (branch inferInstance inferInstance))
    | _ => infer_instance

/-! ### Imports and exports -/

instance needs_exportName : Needs s exportName exportName := by
  refine token_needs fun t => ?_
  cases t with
  | name text escaped => exact leaf _ nofun nofun
  | _ => exact of_needs (h := needs_stringLiteral)

instance needs_fromModule : Needs s fromModule fromModule := by
  unfold fromModule
  infer_instance

instance needs_moduleAttribute : Needs s moduleAttribute moduleAttribute := by
  unfold moduleAttribute
  infer_instance

/-- The word `assert` stands on the line before it, `with` anywhere. -/
instance keeps_moduleAttributes : Keeps s moduleAttributes moduleAttributes := by
  refine seesWord_bind (by decide) (fun _ => ?_) (seesWord_bind (by decide) (fun _ => ?_) ?_)
  · refine seesWord_bind (by decide) nofun (onSameLine_bind (fun b => branch ?_ (.pure trivial)) nofun)
    exact (advance (fun h => nomatch h.1) fun h => nomatch h.1).after fun _ => inferInstance
  · refine onSameLine_bind (fun b => branch ?_ (.pure trivial)) nofun
    exact (advance (fun h => nomatch h.1) fun h => nomatch h.1).after fun _ => inferInstance
  · exact onSameLine_bind (fun b => branch_of nofun fun _ => .pure trivial) fun _ b =>
      branch_of nofun fun _ => .pure trivial

instance needs_importSpecifier : Needs s (importSpecifier ctx) (importSpecifier ctx) := by
  have has := keeps_takeWord (s := s) "as" (by decide)
  refine needs_here_bind (h := fun start => after inferInstance fun given => .before has fun b => ?_)
  refine branch inferInstance ?_
  cases given.label <;> infer_instance

instance needs_importAll : Needs s (importAll ctx) (importAll ctx) := by
  unfold importAll
  infer_instance

instance needs_importedNames : Needs s (importedNames ctx) (importedNames ctx) := by
  unfold importedNames
  infer_instance

theorem respects_isPhaseBefore : Respects s isPhaseBefore := by
  have hfrom : Respects s fun c => c.token == .name "from" false :=
    .of_token (g := (· == .name "from" false)) fun _ ht => ht.beq_word (by decide)
  refine ⟨fun c hin _ hc => ?_, fun c last hc => ?_⟩
  · cases h : c.token with
    | name word escaped =>
      have hl : (s.longer c).token = .name word escaped := h
      rw [isPhaseBefore, isPhaseBefore, hl, h]
      split
      · exact hfrom.next hin hc h
      · rfl
      · rfl
      · rfl
    | _ => simp [isPhaseBefore, Sequel.longer, h]
  · rcases s.entry_token last with h | h
    · simp [isPhaseBefore, h, hc]
    · have hname := h.ne_word (w := "from") (by decide)
      obtain ⟨_, -, h⟩ := h
      rw [h] at hname
      simp only [isPhaseBefore, h, hc]
      split
      · exact absurd ‹_› hname
      · rfl
      · rfl
      · next hother _ => exact absurd rfl (hother _ _)

instance keeps_takePhase : Keeps s takePhase takePhase := by
  have hall : Respects s fun c => c.token == .mark "*" := .of_token (g := (· == .mark "*")) fun _ ht => ht.beq_mark
  have hdefer := keeps_takeWordBefore (s := s) "defer" (by decide) hall
  have hsource := keeps_takeWordBefore (s := s) "source" (by decide) respects_isPhaseBefore
  unfold takePhase
  infer_instance

instance needs_importFrom : Needs s (importFrom ctx start) (importFrom ctx start) := by
  refine token_needs fun t => of_needs (h := ?_)
  extract_lets rest named
  have hrest (parts : List Tree) : Keeps s (rest parts) (rest parts) := .before inferInstance fun _ => inferInstance
  have hnamed (given : List Tree) : Needs s (named given) (named given) := by
    unfold named
    infer_instance
  exact branch inferInstance (.before inferInstance fun _ => token_needs fun u => of_needs (h := inferInstance))

instance needs_exportSpecifier : Needs s exportSpecifier exportSpecifier := by
  have has := keeps_takeWord (s := s) "as" (by decide)
  unfold exportSpecifier
  infer_instance

instance needs_exportList : Needs s (exportList ctx start) (exportList ctx start) := by
  have hfrom := keeps_seesWord (s := s) "from" (by decide)
  refine after inferInstance fun _ => .before inferInstance fun ⟨names, _⟩ => .before hfrom fun b => ?_
  extract_lets rest
  have hrest (source : List Tree) : Keeps s (rest source) (rest source) := .before inferInstance fun _ => inferInstance
  infer_instance

instance needs_exportedAs : Needs s exportedAs exportedAs := by
  unfold exportedAs
  infer_instance

instance needs_exportAll : Needs s (exportAll start) (exportAll start) := by
  have has := keeps_takeWord (s := s) "as" (by decide)
  unfold exportAll
  infer_instance

instance needs_exportDefault {before : List Tree} :
    Needs s (exportDefault r ctx start before) (exportDefault r' ctx start before) := by
  have hasync := keeps_takeWordBefore (s := s) "async" (by decide) respects_beginsFunction
  refine needs_here_bind (h := fun inside => needs_seesWord_bind (h := fun _ => .before hasync fun _ =>
    needs_seesWord_bind (h := fun _ => .before inferInstance fun _ => ?_)))
  infer_instance

instance needs_declarationKind?_bind {β : Type} {k k' : Option String → Reading β}
    [hk : ∀ kind, Needs s (k kind) (k' kind)] : Needs s (declarationKind? >>= k) (declarationKind? >>= k') :=
  declarationKind?_needs (fun _ _ => of_needs) inferInstance

instance needs_exportFrom {before : List Tree} :
    Needs s (exportFrom r ctx start before) (exportFrom r' ctx start before) := by
  have hasync := keeps_seesWordBefore (s := s) "async" (by decide) respects_beginsFunction
  unfold exportFrom
  infer_instance

instance needs_statement {position : Position} :
    Needs s (statement r ctx position) (statement r' ctx position) := by
  have hcalls : Respects s fun c => c.token != .mark "(" && c.token != .mark "." :=
    .of_token (g := fun t => t != .mark "(" && t != .mark ".") (Token.forall_opens fun _ _ => rfl)
  refine needs_here_bind (h := fun start => seesWordBefore_needs hcalls ?_ inferInstance)
  exact guard_bind (h := (advance nofun nofun).after fun _ => inferInstance)

end Agrees

/-- The rules of the grammar agree to each depth of nesting, and behind another line it may be greater. -/
theorem needs_rules {s : Sequel} {n n' : Nat} (hn : n ≤ n') (goal : Goal) (ctx : Context) :
    Needs s (rules n goal ctx) (rules n' goal ctx) := by
  induction n generalizing n' goal ctx with
  | zero => exact Agrees.needs_failure
  | succ n ih =>
    obtain ⟨n', rfl⟩ : ∃ k, n' = k + 1 := ⟨n' - 1, by omega⟩
    have hr (goal : Goal) (ctx : Context) : Needs s (rules n goal ctx) (rules n' goal ctx) :=
      ih (Nat.le_of_succ_le_succ hn) goal ctx
    cases goal with
    | statement position => exact Agrees.needs_statement
    | expression => exact Agrees.needs_expression
    | assignment => exact Agrees.needs_assignment
    | operation level => exact Agrees.needs_operation
    | unary => exact Agrees.needs_unary
    | access reach => exact Agrees.needs_access
    | binding => exact Agrees.needs_binding

end Relabel.Script
