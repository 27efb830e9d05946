import Relabel.Proofs.Fragment.Phrases

/-!
# Reading statements
-/

namespace Relabel.Fragment
open Script Reading
variable {c d : Cursor} {w m : String} {awaits : Bool} {ctx : Context} {rest : List Token} {a b : Item}
  {body : List Item}

/-- A phrase is read as a statement in a list. -/
def Stands (awaits : Bool) (a : Item) : Prop :=
  ∀ (n : Nat) (ctx : Context) (position : Script.Position) (rest : List Token),
    Allows awaits ctx → 4 * a.tokens.length ≤ n → position ≠ .single →
    Reads (rules n (.statement position) ctx) a.tokens rest a.tree

/-- A statement begins with neither a closing brace nor the end of the program. -/
def Continues (a : Item) : Prop :=
  ∃ t ts, a.tokens = t :: ts ∧ t ≠ .mark closeBrace ∧ t ≠ .stop

/-! ### Targets -/

/-- The labels of variables, properties and elements. -/
def isPlace : Label → Bool
  | .identifier _ => true
  | .member _ _ => true
  | .element _ => true
  | _ => false

/-- What may be assigned to is its own pattern. -/
theorem asPattern_of_isPlace {t : Tree} (h : isPlace t.label = true) : t.asPattern .plain = some t := by
  obtain ⟨label, span, children⟩ := t
  rw [Tree.label] at h
  rw [Tree.asPattern.eq_def]
  cases label <;> simp_all [isPlace, Tree.isSimpleTarget]

theorem isPlace_memberTree {t : Tree} (h : isPlace t.label = true) (ns : List String) :
    isPlace (memberTree t ns).label = true := by
  induction ns generalizing t with
  | nil => exact h
  | cons n ns ih => exact ih rfl

theorem isPlace_item {p : Phrase} (h : p.Ok) (ht : p.isTarget = true) :
    isPlace p.item.tree.label = true := by
  cases p with
  | name path =>
    obtain ⟨n, ns, hpath, -⟩ := h
    rw [Phrase.item, hpath]
    exact isPlace_memberTree rfl ns
  | this path =>
    rw [Phrase.item]
    obtain ⟨n, ns, hpath⟩ := List.exists_cons_of_ne_nil (segments_ne_nil path)
    rw [hpath]
    exact isPlace_memberTree rfl ns
  | member object property =>
    rw [Phrase.item]
    obtain ⟨n, ns, hpath⟩ := List.exists_cons_of_ne_nil (segments_ne_nil property)
    rw [hpath]
    exact isPlace_memberTree rfl ns
  | element object index => rfl
  | literal t => cases ht
  | quoted t => cases ht
  | number n => cases ht
  | call callee args => cases ht
  | create constructor args => cases ht
  | typed type value => cases ht

/-! ### Expressions as statements -/

/-- A word that begins an expression, and no statement of its own. -/
theorem run_keywordStatement {rules : Rules} {position : Script.Position} (hw : Word w)
    (hplain : w ≠ "function") (hnext : beginsFunction c.next = false)
    (hc : c.token = .name w false) :
    (keywordStatement rules ctx position w).run c = (expressionStatement rules ctx).run c := by
  rw [keywordStatement]
  have h : ∀ x, ¬ Word x → w ≠ x := fun x => hw.ne
  split <;> first | exact absurd rfl (h _ (by decide)) | skip
  · exact absurd rfl hplain
  · simp [hc, hnext]

/-- A mark follows the words that begin a declaration elsewhere. -/
theorem Begins.run_declarationKind? (hb : Begins awaits a) (hlet : DeclaresNothing a)
    (hc : Starts (a.tokens ++ .mark ";" :: rest) c) : declarationKind?.run c = some (none, c) := by
  have h : ∀ x, ¬ Word x → c.token ≠ .name x false := fun x => (hb.opens hc).ne_name
  have husing : ¬ (c.token = .name "using" false ∧ isNameAt c.next = true) := by
    rintro ⟨hw, hname⟩
    obtain ⟨x, hx, -⟩ := hb.next_mark hc hw (by decide)
    simp [isNameAt, hx] at hname
  have hpattern : ¬ (c.token = .name "let" false ∧ letDeclares c.next = true) := by
    rintro ⟨hw, hdeclares⟩
    obtain ⟨x, hx, hmem⟩ := hb.next_mark hc hw (by decide)
    have hbracket : x ≠ "[" := by
      rintro rfl
      obtain ⟨t, ts, hts, -⟩ := id hb
      have ht := hc.token_append hts
      cases ts with
      | nil =>
        rw [hts] at hc
        exact absurd (hx.symm.trans hc.next.token) (by simp)
      | cons y ts =>
        rw [hts] at hc
        have hy : c.next.token = y := hc.next.token
        exact hlet ts (by rw [hts, ← ht, hw, ← hy, hx])
    simp only [List.mem_cons, List.not_mem_nil, or_false] at hmem
    rcases hmem with rfl | rfl | rfl | rfl | rfl | rfl | rfl <;>
      simp [letDeclares, hx, openBrace] at hdeclares hbracket
  have hawait : ¬ (c.token = .name "await" false ∧ usesAt c.next = true) := by
    rintro ⟨hw, huses⟩
    obtain ⟨x, hx, -⟩ := hb.next_mark hc hw (by decide)
    simp [usesAt, hx] at huses
  simp [declarationKind?, h "var" (by decide), h "const" (by decide), hpattern, husing, hawait]

/-- A phrase at the start of a statement is read as an expression. -/
theorem Begins.run_statement {rules : Rules} {position : Script.Position} (hb : Begins awaits a)
    (hplain : IsPlain a) (hlet : DeclaresNothing a) (hc : Starts (a.tokens ++ .mark ";" :: rest) c) :
    (statement rules ctx position).run c =
      ((do
        let start ← here
        let value ← rules .expression ctx
        semicolon
        node start .expressionStatement [value]) : Reading Tree).run c := by
  have hopens := hb.opens hc
  have hword : ∀ x, ¬ Word x → c.token ≠ .name x false := fun x => hopens.ne_name
  have hmark : ∀ x, x ∉ ["(", "+", "-"] → c.token ≠ .mark x := fun x => hopens.ne_mark
  -- a name at the start is no keyword, and no label as no colon follows
  have hne : ∀ w, c.token = .name w false → w ≠ "new" ∧ w ≠ "function" := by
    intro w hw
    obtain ⟨t, ts, hts, -⟩ := id hb
    refine hplain w ?_
    rw [hts, List.head?_cons, ← hw, hc.token_append hts]
  have hnext : ∀ w, c.token = .name w false → ∃ x, c.next.token = .mark x ∧ x ≠ ":" := by
    intro w hw
    obtain ⟨x, hx, hmem⟩ := hb.next_mark hc hw (hne w hw).1
    refine ⟨x, hx, ?_⟩
    rintro rfl
    simp at hmem
  have hkind := hb.run_declarationKind? hlet hc
  have hexpression : (expressionStatement rules ctx).run c =
      ((do
        let start ← here
        let value ← rules .expression ctx
        semicolon
        node start .expressionStatement [value]) : Reading Tree).run c := by
    rcases hopens with ⟨w, hw, -, -⟩ | ⟨x, hx⟩ | ⟨v, hv⟩ | hparen
    · obtain ⟨x, hx, hcolon⟩ := hnext w hw
      simp [expressionStatement, hw, hx, hcolon]
    · simp [expressionStatement, hx]
    · simp [expressionStatement, hv]
    · simp only [List.mem_cons, List.not_mem_nil, or_false] at hparen
      rcases hparen with h | h | h <;> simp [expressionStatement, h]
  have hstatement : (plainStatement rules ctx position).run c =
      (expressionStatement rules ctx).run c := by
    rcases hopens with ⟨w, hw, hw', -⟩ | ⟨x, hx⟩ | ⟨v, hv⟩ | hparen
    · obtain ⟨x, hx, -⟩ := hnext w hw
      have hkeyword := @run_keywordStatement c w ctx rules position hw' (hne w hw).2
        (by simp [beginsFunction, hx]) hw
      simp [plainStatement, hkind, hw, hkeyword]
    · simp [plainStatement, hkind, hx]
    · simp [plainStatement, hkind, hv]
    · simp only [List.mem_cons, List.not_mem_nil, or_false] at hparen
      rcases hparen with h | h | h <;> simp [plainStatement, hkind, h, openBrace]
  rw [← hexpression, ← hstatement]
  simp [statement, hword "import" (by decide), run_takeWord, hword "export" (by decide),
    hmark "@" (by decide)]

/-- An expression with a semicolon is read as a statement. -/
theorem reads_expressionStatement {n : Nat} {position : Script.Position} (hb : Begins awaits a)
    (hplain : IsPlain a) (hlet : DeclaresNothing a)
    (h : Reads (rules n .expression ctx) a.tokens (.mark ";" :: rest) a.tree) :
    Reads (rules (n + 1) (.statement position) ctx) (expressionItem a).tokens rest
      (expressionItem a).tree := by
  intro c hc hlen
  simp only [expressionItem, List.length_append, List.length_cons, List.length_nil] at hlen
  rw [expressionItem, List.append_assoc] at hc
  obtain ⟨t, d, hrun, hbare, hd, hbound⟩ := h c hc (by omega)
  refine ⟨.node .expressionStatement ⟨c.start, d.next.last⟩ [t], d.next, ?_, ?_, hd.next, ?_⟩
  · show (statement (rules n) ctx position).run c = _
    rw [hb.run_statement hplain hlet hc]
    simp [hrun, run_semicolon hd.token]
  · simp [Tree.bare, Tree.bares, hbare, expressionItem, branch]
  · rw [bound_next, hbound]

/-! ### Assignments and declarations -/

theorem reads_assign {n : Nat} (hctx : Allows awaits ctx) (hb : Begins awaits a) (hplace : isPlace a.tree.label = true)
    (ha : Reads (rules n (.operation 0) ctx) a.tokens (.mark "=" :: (b.tokens ++ .mark ";" :: rest))
      a.tree)
    (hvalue : Reads (rules n .assignment ctx) b.tokens (.mark ";" :: rest) b.tree) :
    Reads (rules (n + 1) .assignment ctx) (a.tokens ++ .mark "=" :: b.tokens) (.mark ";" :: rest)
      (branch (.assignment "=") [a.tree, b.tree]) := by
  intro c hc hlen
  rw [List.append_assoc] at hc
  simp only [List.length_append, List.length_cons] at hlen
  obtain ⟨t, d, hrun, hbare, hd, hbound⟩ := ha c hc (by omega)
  obtain ⟨u, e, hrun', hbare', he, hbound'⟩ := hvalue d.next hd.next
    (by rw [bound_next, hbound]; omega)
  refine ⟨.node (.assignment "=") ⟨c.start, e.last⟩ [t, u], e, ?_, ?_, he,
    by rw [hbound', bound_next, hbound]⟩
  · have hyield : ctx.yields = false := hctx.2
    have hpattern : t.asPattern .plain = some t :=
      asPattern_of_isPlace (by rw [← Tree.label_bare, hbare, hplace])
    have hassigned : (assigned (rules n) ctx c.start t).run d =
        some (.node (.assignment "=") ⟨c.start, e.last⟩ [t, u], e) := by
      simp [assigned, hd.token, assignments, targetOf?, hpattern, hrun']
    show (assignment (rules n) ctx).run c = _
    simp [assignment, hyield, run_takeWordBefore, hb.isArrowHead hc, hrun, hd.token, hassigned]
  · simp [Tree.bare, Tree.bares, hbare, hbare', branch]

theorem run_binding_variable {n : Nat} (hctx : Allows awaits ctx) (hw : Names awaits w) (hc : c.token = .name w false) :
    (rules (n + 1) .binding ctx).run c =
      some (.node (.identifier w) ⟨c.start, c.next.last⟩ [], c.next) := by
  have hrun := run_identifier hc (hw.isIdentifier hctx)
  have hpattern : (Script.Tree.node (.identifier w) ⟨c.start, c.next.last⟩ []).asPattern .plain =
      some (.node (.identifier w) ⟨c.start, c.next.last⟩ []) := asPattern_of_isPlace rfl
  show (binding (rules n) ctx).run c = _
  simp [binding, hc, hrun, hpattern, Tree.isBinding]

/-- One round of `declarationFrom`. -/
def declarationStep (rules : Rules) (ctx : Context) (kind : String) (place : DeclarationPlace)
    (items : List Tree) : Reading (Option (List Tree)) := do
  if ← take "," then return some ((← declarator rules ctx kind place) :: items)
  else return none

theorem declarationFrom_eq (rules : Rules) (ctx : Context) (start : Nat) (kind : String)
    (place : DeclarationPlace) :
    declarationFrom rules ctx start kind place = (do
      let first ← declarator rules ctx kind place
      let items ← iterate (declarationStep rules ctx kind place) [first]
      node start (.declaration kind) items.reverse) := rfl

/-- A variable with its value is read as a declaration, up to the semicolon. -/
theorem run_declarationFrom {n start : Nat} {place : DeclarationPlace} (hctx : Allows awaits ctx) (hw : Names awaits w)
    (hvalue : Reads (rules (n + 1) .assignment ctx) a.tokens (.mark ";" :: rest) a.tree)
    (hc : Starts (.name w false :: .mark "=" :: (a.tokens ++ .mark ";" :: rest)) c)
    (hlen : a.tokens.length ≤ c.bound) :
    ∃ (t target : Tree) (span : Span) (d : Cursor),
      (declarationFrom (rules (n + 1)) ctx start "let" place).run c =
        some (.node (.declaration "let") ⟨start, d.last⟩ [.node .declarator span [target, t]], d) ∧
      target.bare = branch (.identifier w) [] ∧ t.bare = a.tree ∧
      Starts (.mark ";" :: rest) d ∧ d.bound = c.bound := by
  have hname := @run_binding_variable c w awaits ctx n hctx hw hc.token
  obtain ⟨t, d, hrun, hbare, hd, hbound⟩ := hvalue c.next.next hc.next.next
    (by simpa using hlen)
  refine ⟨t, .node (.identifier w) ⟨c.start, c.next.last⟩ [], ⟨c.start, d.last⟩, d, ?_, rfl, hbare, hd,
    by rw [hbound, bound_next, bound_next]⟩
  have hfirst : (declarator (rules (n + 1)) ctx "let" place).run c =
      some (.node .declarator ⟨c.start, d.last⟩
        [.node (.identifier w) ⟨c.start, c.next.last⟩ [], t], d) := by
    simp [declarator, hname, admitsTarget, Tree.label, run_take, hc.next.token, hrun]
  have hstep : (declarationStep (rules (n + 1)) ctx "let" place [.node .declarator
      ⟨c.start, d.last⟩ [.node (.identifier w) ⟨c.start, c.next.last⟩ [], t]]).run d =
      some (none, d) := by
    simp [declarationStep, run_take, hd.token]
  have hlist := @run_repeatUpTo_none _ _ _ _ _ (d.bound + 1) hstep
  rw [declarationFrom_eq]
  simp [hfirst, run_iterate, hlist]

theorem run_declarationKind?_let (hw : Names awaits w)
    (hc : Starts (.name "let" false :: .name w false :: rest) c) :
    declarationKind?.run c = some (some "let", c) := by
  have h1 : w ≠ "in" := hw.ne (by decide)
  have h2 : w ≠ "instanceof" := hw.ne (by decide)
  simp [declarationKind?, hc.token, letDeclares, hc.next.token, h1, h2]

theorem reads_declare {n : Nat} {position : Script.Position} (hctx : Allows awaits ctx)
    (hposition : position ≠ .single) (hw : Names awaits w)
    (hvalue : Reads (rules (n + 1) .assignment ctx) a.tokens (.mark ";" :: rest) a.tree) :
    Reads (rules (n + 2) (.statement position) ctx) (declareItem w a).tokens rest
      (declareItem w a).tree := by
  intro c hc hlen
  simp only [declareItem, List.length_append, List.length_cons, List.length_nil] at hlen
  have hc : Starts (.name "let" false :: .name w false :: .mark "=" ::
      (a.tokens ++ .mark ";" :: rest)) c := by
    simpa [declareItem] using hc
  obtain ⟨t, target, span, d, hrun, htarget, hbare, hd, hbound⟩ :=
    @run_declarationFrom c.next w awaits ctx rest a n c.start .statement hctx hw hvalue hc.next
      (by rw [bound_next]; omega)
  refine ⟨.node (.declaration "let") ⟨c.start, d.next.last⟩ [.node .declarator span [target, t]],
    d.next, ?_, ?_, hd.next, by rw [bound_next, hbound, bound_next]⟩
  · have hkind := run_declarationKind?_let hw hc
    show (statement (rules (n + 1)) ctx position).run c = _
    simp [statement, hc.token, run_takeWord, plainStatement, hkind, declarationStatement, hposition,
      takeKind, hrun, run_semicolon hd.token, Tree.label, Tree.children]
  · simp [Tree.bare, Tree.bares, hbare, htarget, declareItem, declaratorTree, branch]

/-! ### Blocks, functions and loops -/

/-- Statements in braces are read. -/
theorem run_braced {n : Nat} {label : Label} (hctx : Allows awaits ctx) (hbody : ∀ s ∈ body, Continues s ∧ Stands awaits s)
    (hn : 4 * (itemTokens body).length ≤ n)
    (hc : Starts (.mark openBrace :: (itemTokens body ++ .mark closeBrace :: rest)) c)
    (hlen : (itemTokens body).length ≤ c.bound) :
    ∃ ts d, (Script.braced (rules n) ctx label).run c = some (.node label ⟨c.start, d.last⟩ ts, d) ∧
      Tree.bares ts = body.map Item.tree ∧ Starts rest d ∧ d.bound = c.bound := by
  have hitem : ∀ s ∈ body, (∃ t ts, s.tokens = t :: ts ∧ t ≠ .mark closeBrace) ∧
      ∀ rest, Reads (rules n (.statement .list) ctx) s.tokens rest s.tree := by
    intro s hs
    obtain ⟨⟨t, ts, hts, hclose, -⟩, hstands⟩ := hbody s hs
    have := length_le_itemTokens hs
    exact ⟨⟨t, ts, hts, hclose⟩, fun rest => hstands n ctx .list rest hctx (by omega) (by decide)⟩
  obtain ⟨ts, d, hrun, hbare, hd, hbound⟩ := run_itemsTo hitem hc.next (by rw [bound_next]; omega)
  refine ⟨ts, d, ?_, by rw [Tree.bares_eq_map, hbare], hd, by rw [hbound, bound_next]⟩
  simp [Script.braced, run_expect hc.token, hrun]

theorem reads_block {n : Nat} {position : Script.Position} (hctx : Allows awaits ctx)
    (hbody : ∀ s ∈ body, Continues s ∧ Stands awaits s) (hn : 4 * (itemTokens body).length ≤ n) :
    Reads (rules (n + 1) (.statement position) ctx) (blockItem body).tokens rest
      (blockItem body).tree := by
  intro c hc hlen
  simp only [blockItem, List.length_append, List.length_cons] at hlen
  have hc : Starts (.mark openBrace :: (itemTokens body ++ .mark closeBrace :: rest)) c := by
    simpa [blockItem] using hc
  obtain ⟨ts, d, hrun, hbares, hd, hbound⟩ := @run_braced c awaits ctx rest body n .block hctx hbody hn hc
    (by omega)
  have hkind : declarationKind?.run c = some (none, c) := by
    simp [declarationKind?, hc.token]
  have hstatement : (statement (rules n) ctx position).run c =
      some (.node .block ⟨c.start, d.last⟩ ts, d) := by
    rw [← hrun]
    simp [statement, run_takeWord, hc.token, plainStatement, hkind, openBrace]
  exact ⟨_, d, hstatement, by simp [Tree.bare, hbares, blockItem, branch], hd, hbound⟩

/-- A function without name and parameters is read as a value. -/
theorem accesses_function (hbody : ∀ s ∈ body, Continues s ∧ Stands false s) :
    Accesses awaits (functionItem body) := by
  refine .of_value (fun r ctx c m rest _ hr hc hlen => ?_) (by simp [functionItem])
  simp only [functionItem, List.length_append, List.length_cons, List.length_nil] at hr hlen
  have hc : Starts (.name "function" false :: .mark "(" :: .mark ")" :: .mark openBrace ::
      (itemTokens body ++ .mark closeBrace :: .mark m :: rest)) c := by
    simpa [functionItem] using hc
  have hparameters : (Script.parameters (rules r) (.ofFunction false false)).run c.next =
      some (.node .parameters ⟨c.next.start, c.next.next.next.last⟩ [], c.next.next.next) := by
    have hlist := @run_separatedStep_close c.next.next ")" (parameter (rules r) (.ofFunction false false))
      [] c.next.next.bound false hc.next.next.token
    simp [Script.parameters, run_expect hc.next.token, separated_eq, run_iterate] at hlist ⊢
    simp [hlist, restIsLast]
  obtain ⟨ts, d, hrun, hbares, hd, hbound⟩ := @run_braced c.next.next.next false
    (.ofFunction false false) _ body r .body ⟨rfl, rfl⟩ hbody (by omega) hc.next.next.next
    (by simp; omega)
  refine ⟨.node (.function false false) ⟨c.start, d.last⟩
    [.node .parameters ⟨c.next.start, c.next.next.next.last⟩ [],
      .node .body ⟨c.next.next.next.start, d.last⟩ ts], d, ?_, ?_, hd, by simp [hbound]⟩
  · have hstar : c.next.token ≠ .mark "*" := by simp [hc.next.token]
    simp [value, hc.token, wordValue, functionFrom, run_expectWord, run_take, hc.next.token,
      functionParts, hparameters, hrun]
  · simp [Tree.bare, Tree.bares, hbares, functionItem, branch]

theorem begins_function : Begins awaits (functionItem body) :=
  ⟨_, _, rfl, .inl ⟨"function", rfl, by decide, fun _ => by decide⟩, fun _ _ => .inr (.inr ⟨"(", _, rfl, by decide⟩)⟩

end Relabel.Fragment
