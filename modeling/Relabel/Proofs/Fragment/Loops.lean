import Relabel.Proofs.Fragment.Statements

/-!
# Reading loops
-/

namespace Relabel.Fragment
open Script Reading
variable {c d : Cursor} {w m : String} {awaits : Bool} {ctx : Context} {rest : List Token} {a b : Item}
  {body : List Item}

/-! ### The head of a loop -/

theorem mixes_less (isLeft : Bool) (t : Tree) : mixes "<" isLeft t = true := by
  rw [mixes]
  split <;> simp

/-- A comparison is read as an operation of a lower level. -/
theorem reads_less {n : Nat} (hb : Begins awaits a)
    (ha : Reads (rules n .unary ctx) a.tokens (.mark "<" :: (b.tokens ++ .mark ";" :: rest)) a.tree)
    (hright : Reads (rules n (.operation 8) ctx) b.tokens (.mark ";" :: rest) b.tree) :
    Reads (rules (n + 1) (.operation 0) ctx) (a.tokens ++ .mark "<" :: b.tokens) (.mark ";" :: rest)
      (branch (.binary "<") [a.tree, b.tree]) := by
  intro c hc hlen
  rw [List.append_assoc] at hc
  simp only [List.length_append, List.length_cons] at hlen
  obtain ⟨t, d, hrun, hbare, hd, hbound⟩ := ha c hc (by omega)
  obtain ⟨u, e, hrun', hbare', he, hbound'⟩ := hright d.next hd.next
    (by rw [bound_next, hbound]; omega)
  have hstep : (operationStep (rules n) ctx 0 c.start t).run d =
      some (some (.node (.binary "<") ⟨c.start, e.last⟩ [t, u]), e) := by
    have hlevel : level? ctx (.mark "<") = some ("<", 8) := rfl
    simp [operationStep, hd.token, hlevel, hrun', mixes_less]
  have hstop : (operationStep (rules n) ctx 0 c.start
      (.node (.binary "<") ⟨c.start, e.last⟩ [t, u])).run e = some (none, e) := by
    simp [operationStep, he.token, level?_closer]
  refine ⟨.node (.binary "<") ⟨c.start, e.last⟩ [t, u], e, ?_, ?_, he,
    by rw [hbound', bound_next, hbound]⟩
  · have hlist := run_repeatUpTo_some (n := d.bound + 1) hstep
    rw [run_repeatUpTo_none hstop] at hlist
    show (operation (rules n) ctx 0).run c = _
    rw [operation_eq]
    simp [hb.firstOperand hc, hrun, run_iterate, hlist]
  · simp [Tree.bare, Tree.bares, hbare, hbare', branch]

def stepItem (index : String) : Item :=
  ⟨[.name index false, .mark "++"], branch (.update "++" false) [branch (.identifier index) []]⟩

theorem begins_stepItem (hw : Names awaits w) : Begins awaits (stepItem w) :=
  ⟨_, _, rfl, .inl ⟨w, rfl, .inl hw.1, hw.2⟩, fun _ _ => .inr (.inr ⟨"++", _, rfl, by decide⟩)⟩

theorem reads_step {n : Nat} (hctx : Allows awaits ctx) (hw : Names awaits w) :
    Reads (rules (n + 1) .unary ctx) (stepItem w).tokens rest (stepItem w).tree := by
  intro c hc hlen
  have hc : Starts (.name w false :: .mark "++" :: rest) c := hc
  have hnext := hc.next.token
  have hvalue := @run_value_variable c w awaits ctx (rules n) hctx hc.token hw (by simp [hnext])
  have hsteps := @Steps.refl (rules n) ctx c.start
    (.node (.identifier w) ⟨c.start, c.next.last⟩ []) c.next
  have haccess := hsteps.access hvalue (Nat.zero_le _) (by decide) hnext
  have hline : c.next.newline = false := hc.next.2.1 rfl
  refine ⟨.node (.update "++" false) ⟨c.start, c.next.next.last⟩
    [.node (.identifier w) ⟨c.start, c.next.last⟩ []], c.next.next, ?_, rfl, hc.next.next, by simp⟩
  have hupdated : (updated (rules n) ctx).run c = some (.node (.update "++" false)
      ⟨c.start, c.next.next.last⟩ [.node (.identifier w) ⟨c.start, c.next.last⟩ []], c.next.next) := by
    simp [updated, haccess, hnext, hline, updateOf, Tree.isSimpleTarget]
  have h1 : w ≠ "typeof" := hw.ne (by decide)
  have h2 : w ≠ "void" := hw.ne (by decide)
  have h3 : w ≠ "delete" := hw.ne (by decide)
  have h4 : ¬ (w = "await" ∧ ctx.awaits = true) := by
    rintro ⟨rfl, hawaits⟩
    exact hw.2 (hctx.1 ▸ hawaits) rfl
  show (unary (rules n) ctx).run c = _
  simp [unary, hc.token, h1, h2, h3, h4, hupdated]

/-- The condition of a loop. -/
def testItem (index : String) (list : Item) : Item :=
  ⟨[.name index false] ++ .mark "<" :: (list.tokens ++ [.mark ".", .name "length" false]),
    branch (.binary "<")
      [branch (.identifier index) [], branch (.member "length" false) [list.tree]]⟩

theorem begins_testItem (hw : Names awaits w) : Begins awaits (testItem w a) :=
  ⟨_, _, rfl, .inl ⟨w, rfl, .inl hw.1, hw.2⟩, fun _ _ => .inr (.inr ⟨"<", _, rfl, by decide⟩)⟩

theorem begins_variable {t : Tree} (hw : Names awaits w) : Begins awaits ⟨[.name w false], t⟩ :=
  ⟨_, _, rfl, .inl ⟨w, rfl, .inl hw.1, hw.2⟩, fun _ _ => .inr (.inl rfl)⟩

theorem reads_test {n : Nat} (hctx : Allows awaits ctx) (hw : Names awaits w) (hb : Begins awaits a) (ha : Accesses awaits a)
    (hn : 4 * (testItem w a).tokens.length ≤ n) :
    Reads (rules n .expression ctx) (testItem w a).tokens (.mark ";" :: rest) (testItem w a).tree := by
  simp only [testItem, List.length_append, List.length_cons, List.length_nil] at hn
  obtain ⟨r, rfl⟩ : ∃ r, n = r + 5 := ⟨n - 5, by omega⟩
  have hlength := @Accesses.unary awaits ctx rest _ ";" r (ha.member "length") (hb.append (by decide)) hctx
    (by simp only [List.length_append, List.length_cons, List.length_nil]; omega)
    (by decide) (by decide) (by decide)
  have hoperand : Reads (rules (r + 2) (.operation 8) ctx) _ _ _ :=
    reads_operation (hb.append (by decide)) hlength (level?_closer (by decide))
  have hindex := @Accesses.unary awaits ctx (a.tokens ++ [.mark ".", .name "length" false] ++ .mark ";" :: rest)
    ⟨[.name w false], branch (.identifier w) []⟩ "<" (r + 1) (accesses_variable hw)
    (begins_variable hw) hctx (by simp) (by decide) (by decide) (by decide)
  have htest := reads_less (begins_variable hw) hindex hoperand
  exact run_expression (reads_assignment hctx (begins_testItem hw) htest (by decide)) (by decide)

theorem run_optionalBefore {n : Nat} (hb : Begins awaits a)
    (ha : Reads (rules n .expression ctx) a.tokens (.mark m :: rest) a.tree)
    (hm : m ∉ ["(", "+", "-"]) (hc : Starts (a.tokens ++ .mark m :: rest) c)
    (hlen : a.tokens.length ≤ c.bound) :
    ∃ t d, (optionalBefore (rules n) ctx m).run c = some ([t], d) ∧ t.bare = a.tree ∧
      Starts rest d ∧ d.bound = c.bound := by
  obtain ⟨t, d, hrun, hbare, hd, hbound⟩ := ha c hc hlen
  have hne : c.token ≠ .mark m := (hb.opens hc).ne_mark hm
  refine ⟨t, d.next, ?_, hbare, hd.next, by rw [bound_next, hbound]⟩
  simp [optionalBefore, run_take, hne, hrun, run_expect hd.token]

theorem reads_loop {n : Nat} {position : Script.Position} (hctx : Allows awaits ctx) (hw : Names awaits w)
    (hb : Begins awaits a) (ha : Accesses awaits a) (hbody : ∀ s ∈ body, Continues s ∧ Stands awaits s)
    (hn : 4 * (loopItem w a (blockItem body)).tokens.length ≤ n + 1) :
    Reads (rules (n + 1) (.statement position) ctx) (loopItem w a (blockItem body)).tokens rest
      (loopItem w a (blockItem body)).tree := by
  intro c hc hlen
  have hlength : (loopItem w a (blockItem body)).tokens.length =
      a.tokens.length + (itemTokens body).length + 17 := by
    simp only [loopItem, numberItem, blockItem, List.length_append, List.length_cons, List.length_nil]
    omega
  rw [hlength] at hn hlen
  have hc : Starts (.name "for" false :: .mark "(" :: .name "let" false :: .name w false :: .mark "=" ::
      ((numberItem 0).tokens ++ .mark ";" :: ((testItem w a).tokens ++ .mark ";" ::
        ((stepItem w).tokens ++ .mark ")" :: ((blockItem body).tokens ++ rest))))) c := by
    simpa [loopItem, testItem, stepItem] using hc
  obtain ⟨k, rfl⟩ : ∃ k, n = k + 6 := ⟨n - 6, by omega⟩
  -- the variable, the condition and the step, each from where the one before ends
  have hzero : Assigns awaits (numberItem 0) := (accesses_number _).assigns
    (begins_of_ne_name (.inr (.inr (.inl ⟨_, rfl⟩))) (by simp))
  obtain ⟨t₀, target, span, d, hdeclare, htarget, hbare₀, hd, hbound⟩ :=
    @run_declarationFrom c.next.next.next w awaits { ctx with comparesIn := false } _ (numberItem 0) (k + 5)
      c.next.next.start .loopHead hctx hw (hzero _ _ ";" _ hctx (by simp [numberItem]) (by decide))
      hc.next.next.next (by simp [numberItem]; omega)
  obtain ⟨t₁, e, htest, hbare₁, he, hbound₁⟩ := @run_optionalBefore d.next _ awaits ctx _ (testItem w a) (k + 6)
    (begins_testItem hw) (reads_test hctx hw hb ha (by simp [testItem]; omega)) (by decide) hd.next
    (by simp [hbound, testItem]; omega)
  have hupdate : Reads (rules (k + 4) (.operation 0) ctx) _ _ _ := reads_operation (begins_stepItem hw)
    (@reads_step w awaits ctx (.mark ")" :: ((blockItem body).tokens ++ rest)) (k + 2) hctx hw)
    (level?_closer (by decide))
  have hstep := reads_assignment hctx (begins_stepItem hw) hupdate (by decide)
  obtain ⟨t₂, f, hstep, hbare₂, hf, hbound₂⟩ := @run_optionalBefore e _ awaits ctx _ (stepItem w) (k + 6)
    (begins_stepItem hw) (run_expression hstep (by decide)) (by decide) he
    (by simp [hbound₁, hbound, stepItem]; omega)
  obtain ⟨t₃, g, hblock, hbare₃, hg, hbound₃⟩ := @reads_block awaits ctx rest body (k + 5) .single hctx hbody
    (by omega) f hf (by simp [hbound₂, hbound₁, hbound, blockItem]; omega)
  have hdepth : (rules (k + 5 + 1) (.statement .single) ctx).run f = some (t₃, g) := hblock
  have hkind := run_declarationKind?_let hw hc.next.next
  have hcounted : (countedLoop (rules (k + 6)) ctx c.start [.node (.declaration "let")
      ⟨c.next.next.start, d.last⟩ [.node .declarator span [target, t₀]]]).run d =
      some (.node (.statement "for") ⟨c.start, g.last⟩ [.node (.declaration "let")
        ⟨c.next.next.start, d.last⟩ [.node .declarator span [target, t₀]], t₁, t₂, t₃], g) := by
    simp [countedLoop, run_expect hd.token, htest, hstep, dependent, hdepth]
  have hfor : (statement (rules (k + 6)) ctx position).run c =
      some (.node (.statement "for") ⟨c.start, g.last⟩ [.node (.declaration "let")
        ⟨c.next.next.start, d.last⟩ [.node .declarator span [target, t₀]], t₁, t₂, t₃], g) := by
    have hnone : declarationKind?.run c = some (none, c) := by
      simp [declarationKind?, hc.token]
    have hloop : takeLoopWord.run d = some (none, d) := by
      simp [takeLoopWord, run_takeWord, hd.token]
    simp [statement, run_takeWord, hc.token, plainStatement, hnone, keywordStatement, forStatement,
      hc.next.token, run_expect, hc.next.next.token, hkind, declaringLoop, takeKind, hdeclare, hloop,
      countsWell, Tree.children, hcounted]
  refine ⟨_, g, hfor, ?_, hg, by simp [hbound₃, hbound₂, hbound₁, hbound]⟩
  simp [Tree.bare, Tree.bares, htarget, hbare₀, hbare₁, hbare₂, hbare₃, loopItem, declaratorTree,
    testItem, stepItem, branch]

/-! ### By the structure of statements -/

theorem Begins.continues {us : List Token} {t : Tree} (h : Begins awaits a) : Continues ⟨a.tokens ++ us, t⟩ := by
  obtain ⟨x, ts, hts, hopens, -⟩ := h
  refine ⟨x, ts ++ us, by simp [hts], hopens.ne_mark (by decide), ?_⟩
  rintro rfl
  rcases hopens with ⟨w, hw, -⟩ | ⟨x, hx⟩ | ⟨v, hv⟩ | h
  · cases hw
  · cases hx
  · cases hv
  · simp at h

theorem stands_expression (hb : Begins awaits a) (hplain : IsPlain a) (hlet : DeclaresNothing a) (ha : Assigns awaits a) :
    Stands awaits (expressionItem a) := by
  intro n ctx position rest hctx hn _
  simp only [expressionItem, List.length_append, List.length_cons, List.length_nil] at hn
  obtain ⟨k, rfl⟩ : ∃ k, n = k + 2 := ⟨n - 2, by omega⟩
  exact reads_expressionStatement hb hplain hlet
    (run_expression (ha k ctx ";" rest hctx (by omega) (by decide)) (by decide))

theorem stands_assign (hb : Begins awaits a) (hplain : IsPlain a) (hlet : DeclaresNothing a) (hplace : isPlace a.tree.label = true)
    (ha : Accesses awaits a) (hvalue : Assigns awaits b) : Stands awaits (assignItem a b) := by
  intro n ctx position rest hctx hn _
  simp only [assignItem, List.length_append, List.length_cons, List.length_nil] at hn
  obtain ⟨k, rfl⟩ : ∃ k, n = k + 5 := ⟨n - 5, by omega⟩
  have htarget := @Accesses.unary awaits ctx (b.tokens ++ .mark ";" :: rest) a "=" k ha hb hctx (by omega)
    (by decide) (by decide) (by decide)
  have hassign := reads_assign hctx hb hplace (reads_operation hb htarget (level?_closer (by decide)))
    (hvalue (k + 2) ctx ";" rest hctx (by omega) (by decide))
  exact reads_expressionStatement (hb.append (by decide)) (hplain.append hb)
    (hlet.append hb (.inl (by decide)))
    (run_expression hassign (by decide))

theorem stands_declare (hw : Names awaits w) (ha : Assigns awaits a) : Stands awaits (declareItem w a) := by
  intro n ctx position rest hctx hn hposition
  simp only [declareItem, List.length_append, List.length_cons, List.length_nil] at hn
  obtain ⟨k, rfl⟩ : ∃ k, n = k + 2 := ⟨n - 2, by omega⟩
  exact reads_declare hctx hposition hw (ha (k + 1) ctx ";" rest hctx (by omega) (by decide))

theorem stands_block (hbody : ∀ s ∈ body, Continues s ∧ Stands awaits s) : Stands awaits (blockItem body) := by
  intro n ctx position rest hctx hn _
  simp only [blockItem, List.length_append, List.length_cons, List.length_nil] at hn
  obtain ⟨k, rfl⟩ : ∃ k, n = k + 1 := ⟨n - 1, by omega⟩
  exact reads_block hctx hbody (by omega)

theorem stands_loop (hw : Names awaits w) (hb : Begins awaits a) (ha : Accesses awaits a)
    (hbody : ∀ s ∈ body, Continues s ∧ Stands awaits s) : Stands awaits (loopItem w a (blockItem body)) := by
  intro n ctx position rest hctx hn _
  obtain ⟨k, rfl⟩ : ∃ k, n = k + 1 := ⟨n - 1, by simp [loopItem] at hn; omega⟩
  exact reads_loop hctx hw hb ha hbody hn

mutual

theorem Statement.readable : ∀ {s : Statement}, s.Ok → ∀ a ∈ s.items, Continues a ∧ Stands false a
  | .run p, ⟨haccess, hlet, hp⟩, a, ha => by
    have h := p.readable hp
    rw [List.mem_singleton.1 ha]
    exact ⟨h.begins.continues, stands_expression h.begins (h.plain haccess) (p.declaresNothing hp haccess hlet)
      h.assigns⟩
  | .record p, ⟨haccess, hlet, hp⟩, a, ha => by
    have h := p.readable hp
    rw [List.mem_singleton.1 ha]
    exact ⟨h.begins.continues, stands_expression h.begins (h.plain haccess) (p.declaresNothing hp haccess hlet)
      h.assigns⟩
  | .declare name value, ⟨hname, hvalue⟩, a, ha => by
    rw [List.mem_singleton.1 ha]
    exact ⟨⟨_, _, rfl, by simp, by simp⟩, stands_declare (names_of_isIdentifier hname) (value.readable hvalue).assigns⟩
  | .assign target value, ⟨htarget, hlet, hok, hvalue⟩, a, ha => by
    have h := target.readable hok
    have haccess := isAccess_of_isTarget htarget
    rw [List.mem_singleton.1 ha]
    refine ⟨?_, stands_assign h.begins (h.plain haccess) (target.declaresNothing hok haccess hlet)
      (isPlace_item hok htarget) (h.accesses haccess) (value.readable hvalue).assigns⟩
    rw [assignItem, List.append_assoc]
    exact h.begins.continues
  | .note text, _, a, ha => by cases ha
  | .block body, hbody, a, ha => by
    rw [List.mem_singleton.1 ha]
    exact ⟨⟨_, _, rfl, by decide, by simp⟩, stands_block (readable_of_statementsOk hbody)⟩
  | .declareFunction name body, ⟨hname, hbody⟩, a, ha => by
    rw [List.mem_singleton.1 ha]
    have h : Accesses false _ := accesses_function (readable_of_statementsOk hbody)
    exact ⟨⟨_, _, rfl, by simp, by simp⟩, stands_declare (names_of_isIdentifier hname) (h.assigns begins_function)⟩
  | .assignFunction target body, ⟨htarget, hlet, hok, hbody⟩, a, ha => by
    have h := target.readable hok
    have hvalue : Accesses false _ := accesses_function (readable_of_statementsOk hbody)
    have haccess := isAccess_of_isTarget htarget
    rw [List.mem_singleton.1 ha]
    refine ⟨?_, stands_assign h.begins (h.plain haccess) (target.declaresNothing hok haccess hlet)
      (isPlace_item hok htarget) (h.accesses haccess) (hvalue.assigns begins_function)⟩
    rw [assignItem, List.append_assoc]
    exact h.begins.continues
  | .forEach index item items body, ⟨hindex, hitem, haccess, hok, hbody⟩, a, ha => by
    have h := items.readable hok
    have hname : (Phrase.name index).Ok :=
      ⟨index, [], segments_of_isName (isName_of_isIdentifier hindex), hindex, by simp⟩
    have helement : (Phrase.element items (.name index)).Ok := ⟨haccess, hok, hname⟩
    rw [List.mem_singleton.1 ha]
    refine ⟨⟨_, _, rfl, by simp, by simp⟩, stands_loop (names_of_isIdentifier hindex) h.begins (h.accesses haccess) ?_⟩
    intro s hs
    rcases List.mem_cons.1 hs with rfl | hs
    · exact ⟨⟨_, _, rfl, by simp, by simp⟩,
        stands_declare (names_of_isIdentifier hitem) (Phrase.readable helement).assigns⟩
    · exact readable_of_statementsOk hbody s hs

theorem readable_of_statementsOk : ∀ {ss : List Statement}, StatementsOk ss →
    ∀ a ∈ itemsOfAll ss, Continues a ∧ Stands false a
  | [], _, a, ha => by cases ha
  | s :: ss, ⟨hs, hss⟩, a, ha => by
    rcases List.mem_append.1 ha with ha | ha
    · exact s.readable hs a ha
    · exact readable_of_statementsOk hss a ha

end

end Relabel.Fragment
