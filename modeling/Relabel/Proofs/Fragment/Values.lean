import Relabel.Proofs.Fragment.Syntax

/-!
# Reading values
-/

namespace Relabel.Fragment
open Script Reading
variable {c d : Cursor} {w : String} {awaits : Bool} {ctx : Context} {rest : List Token} {a b : Item}
  {m : String}

/-- A context where `await` is an operator or not; `yield` is none wherever something is emitted. -/
def Allows (awaits : Bool) (ctx : Context) : Prop :=
  ctx.awaits = awaits ∧ ctx.yields = false

/-- A word that may stand for a variable where `await` is an operator or not. -/
def Names (awaits : Bool) (w : String) : Prop :=
  isIdentifier w = true ∧ (awaits = true → w ≠ "await")

/-- A word that a phrase may begin with. -/
def Word (w : String) : Prop :=
  isIdentifier w = true ∨ w ∈ ["this", "new", "function"]

instance (w : String) : Decidable (Word w) :=
  inferInstanceAs (Decidable (isIdentifier w = true ∨ w ∈ ["this", "new", "function"]))

theorem Word.ne {x : String} (h : Word w) (hx : ¬ Word x) : w ≠ x := by
  rintro rfl
  exact hx h

theorem names_of_isIdentifier (h : isIdentifier w = true) : Names false w :=
  ⟨h, fun hawaits => absurd hawaits (by decide)⟩

theorem Names.ne {x : String} (h : Names awaits w) (hx : isIdentifier x = false) : w ≠ x := by
  rintro rfl
  exact absurd h.1 (by simp [hx])

theorem Names.isIdentifier (h : Names awaits w) (hctx : Allows awaits ctx) :
    ctx.isIdentifier w = true := by
  obtain ⟨hname, hawait⟩ := h
  obtain ⟨rfl, hyields⟩ := hctx
  simp only [Fragment.isIdentifier, Bool.and_eq_true, Bool.not_eq_true'] at hname
  have hreserved : w ∉ reservedWords := by simpa using hname.2
  have hawait : ctx.awaits = false ∨ w ≠ "await" := by
    cases hawaits : ctx.awaits with
    | false => exact .inl rfl
    | true => exact .inr (hawait hawaits)
  simp [Context.isIdentifier, hyields, hreserved, hawait]

theorem run_value_variable {rules : Rules} (hctx : Allows awaits ctx) (h : c.token = .name w false)
    (hw : Names awaits w) (hnext : ∀ x, c.next.token ≠ .name x false) :
    (value rules ctx).run c = some (.node (.identifier w) ⟨c.start, c.next.last⟩ [], c.next) := by
  have hasync : beginsFunction c.next = false := by
    simp [beginsFunction, hnext]
  have hrun := run_identifier h (hw.isIdentifier hctx)
  have h1 : w ≠ "this" := hw.ne (by decide)
  have h2 : w ≠ "null" := hw.ne (by decide)
  have h3 : w ≠ "true" := hw.ne (by decide)
  have h4 : w ≠ "false" := hw.ne (by decide)
  have h5 : w ≠ "function" := hw.ne (by decide)
  have h6 : w ≠ "class" := hw.ne (by decide)
  have h7 : w ≠ "new" := hw.ne (by decide)
  have h8 : w ≠ "import" := hw.ne (by decide)
  have h9 : w ≠ "super" := hw.ne (by decide)
  simp [value, h, wordValue, run_takeWordBefore, hasync, hrun]

/-! ### What follows a value -/

/-- Properties, indices and calls that follow a value, read one after another. -/
inductive Steps (rules : Rules) (ctx : Context) (start : Nat) :
    Nat → Tree → Cursor → Tree → Cursor → Prop where
  | refl (t : Tree) (c : Cursor) : Steps rules ctx start 0 t c t c
  | step {k : Nat} {t u : Tree} {c d : Cursor} {t' : Tree} {c' : Cursor}
      (h : Steps rules ctx start k t c u d)
      (hstep : (followed rules ctx .all start ⟨u, false⟩).run d = some (some ⟨t', false⟩, c')) :
      Steps rules ctx start (k + 1) t c t' c'

theorem Steps.run {rules : Rules} {start k n : Nat} {t u : Tree} (h : Steps rules ctx start k t c u d) :
    (repeatUpTo (followed rules ctx .all start) (n + k) ⟨t, false⟩).run c =
      (repeatUpTo (followed rules ctx .all start) n ⟨u, false⟩).run d := by
  induction h generalizing n with
  | refl => rfl
  | step h hstep ih =>
    rw [show ∀ k, n + (k + 1) = n + 1 + k by intro k; omega, ih, run_repeatUpTo_some hstep]

/-- Whether a mark goes on with the value before it. -/
def goesOn (m : String) : Bool :=
  [".", "?.", "[", "("].contains m

/-- A value is read up to a mark that does not go on with it. -/
theorem Steps.access {rules : Rules} {k : Nat} {t u : Tree}
    (hvalue : (value rules ctx).run c = some (t, d)) {e : Cursor}
    (h : Steps rules ctx c.start k t d u e) (hk : k ≤ d.bound) (hm : goesOn m = false)
    (he : e.token = .mark m) : (access rules ctx .all).run c = some (u, e) := by
  have hstop : (followed rules ctx .all c.start ⟨u, false⟩).run e = some (none, e) := by
    simp only [goesOn, List.contains_cons, Bool.or_eq_false_iff, beq_eq_false_iff_ne] at hm
    simp [followed, run_take, he, hm]
  have hrun := @Steps.run d e ctx rules c.start k (d.bound + 2 - k) t u h
  obtain ⟨n, hn⟩ : ∃ n, d.bound + 2 - k = n + 1 := ⟨d.bound + 1 - k, by omega⟩
  rw [show d.bound + 2 - k + k = d.bound + 2 by omega, hn, run_repeatUpTo_none hstop] at hrun
  simp [Script.access, hvalue, run_iterate, hrun]

/-! ### Goals -/

/-- A token that a phrase may begin with where `await` is an operator or not. -/
def Opens (awaits : Bool) (t : Token) : Prop :=
  (∃ w, t = .name w false ∧ Word w ∧ (awaits = true → w ≠ "await")) ∨ (∃ s, t = .string s) ∨
    (∃ v, t = .number v) ∨ t ∈ [.mark "(", .mark "+", .mark "-"]

/-- A phrase begins like one. What follows the word it begins with makes no statement of another
kind of it. -/
def Begins (awaits : Bool) (a : Item) : Prop :=
  ∃ t ts, a.tokens = t :: ts ∧ Opens awaits t ∧
    ∀ w, t = .name w false → w = "new" ∨ ts = [] ∨
      ∃ m ts', ts = .mark m :: ts' ∧ m ∈ [".", "[", "(", "=", "<", "++"]

/-- A phrase is read as a value with what follows it, up to a mark. The depth of the rules that is
needed goes with the number of tokens. -/
def Accesses (awaits : Bool) (a : Item) : Prop :=
  ∀ (r : Nat) (ctx : Context) (c : Cursor) (m : String) (rest : List Token) (start : Nat),
    Allows awaits ctx → 4 * a.tokens.length ≤ r + 3 → Starts (a.tokens ++ .mark m :: rest) c →
    a.tokens.length ≤ c.bound →
    ∃ t d k u e, (value (rules r) ctx).run c = some (t, d) ∧
      Steps (rules r) ctx start k t d u e ∧ u.bare = a.tree ∧ Starts (.mark m :: rest) e ∧
      d.bound = c.bound ∧ e.bound = c.bound ∧ k < a.tokens.length

/-- A phrase is read as an expression that is no list. -/
def Assigns (awaits : Bool) (a : Item) : Prop :=
  ∀ (n : Nat) (ctx : Context) (m : String) (rest : List Token),
    Allows awaits ctx → 4 * a.tokens.length ≤ n → m ∈ [",", ")", "]", ";"] →
    Reads (rules n .assignment ctx) a.tokens (.mark m :: rest) a.tree

theorem Opens.ne_mark {t : Token} (h : Opens awaits t) (hm : m ∉ ["(", "+", "-"]) : t ≠ .mark m := by
  rintro rfl
  rcases h with ⟨w, h, -⟩ | ⟨s, h⟩ | ⟨v, h⟩ | h
  · cases h
  · cases h
  · cases h
  · simp only [List.mem_cons, Token.mark.injEq, List.not_mem_nil, or_false] at h hm
    exact hm h

theorem Opens.ne_name {t : Token} (h : Opens awaits t) (hw : ¬ Word w) : t ≠ .name w false := by
  rintro rfl
  rcases h with ⟨x, h, hx, -⟩ | ⟨s, h⟩ | ⟨v, h⟩ | h
  · injection h with h
    exact hw (h ▸ hx)
  · cases h
  · cases h
  · simp at h

theorem Begins.opens (h : Begins awaits a) (hc : Starts (a.tokens ++ rest) c) :
    Opens awaits c.token := by
  obtain ⟨t, ts, hts, ht, -⟩ := h
  rw [hc.token_append hts]
  exact ht

/-- A mark follows the word that a phrase begins with. -/
theorem Begins.next_mark (h : Begins awaits a) (hc : Starts (a.tokens ++ .mark m :: rest) c)
    (hw : c.token = .name w false) (hnew : w ≠ "new") :
    ∃ x, c.next.token = .mark x ∧ x ∈ [".", "[", "(", "=", "<", "++", m] := by
  obtain ⟨t, ts, hts, -, hnext⟩ := h
  have ht := hc.token_append hts
  rw [hts] at hc
  rcases hnext w (by rw [← ht, hw]) with h | rfl | ⟨x, ts, rfl, hx⟩
  · exact absurd h hnew
  · exact ⟨m, hc.next.token, by simp⟩
  · refine ⟨x, hc.next.token, ?_⟩
    simp only [List.mem_cons, List.not_mem_nil, or_false] at hx ⊢
    tauto

/-! ### Expressions -/

/-- One round of `expression`. -/
def expressionStep (rules : Rules) (ctx : Context) (items : List Tree) :
    Reading (Option (List Tree)) := do
  if ← take "," then return some ((← rules .assignment ctx) :: items) else return none

theorem expression_eq (rules : Rules) (ctx : Context) :
    expression rules ctx = (do
      let start ← here
      let first ← rules .assignment ctx
      let items ← iterate (expressionStep rules ctx) [first]
      match items with
      | [t] => return t
      | items => node start .sequence items.reverse) := rfl

theorem run_expression {n : Nat} (h : Reads (rules n .assignment ctx) a.tokens (.mark m :: rest) a.tree)
    (hm : m ≠ ",") : Reads (rules (n + 1) .expression ctx) a.tokens (.mark m :: rest) a.tree := by
  intro c hc hb
  obtain ⟨t, d, hrun, hbare, hd, hbound⟩ := h c hc hb
  refine ⟨t, d, ?_, hbare, hd, hbound⟩
  have hstep : (expressionStep (rules n) ctx [t]).run d = some (none, d) := by
    simp [expressionStep, run_take, hd.token, hm]
  have hlist := @run_repeatUpTo_none d d (List Tree) (expressionStep (rules n) ctx) [t]
    (d.bound + 1) hstep
  show (expression (rules n) ctx).run c = some (t, d)
  rw [expression_eq]
  simp [hrun, run_iterate, hlist]

/-- One round of `operation`. -/
def operationStep (rules : Rules) (ctx : Context) (level start : Nat) (left : Tree) :
    Reading (Option Tree) := do
  match level? ctx (← token) with
  | some (operator, l) =>
    if l ≤ level then return none
    else
      advance
      let right ← rules (.operation (if operator = "**" then l - 1 else l)) ctx
      guard (mixes operator true left && mixes operator false right)
      return some (← node start (.binary operator) [left, right])
  | none => return none

theorem operation_eq (rules : Rules) (ctx : Context) (level : Nat) :
    operation rules ctx level = (do
      let start ← here
      let first ← firstOperand rules ctx level
      iterate (operationStep rules ctx level start) first) := rfl

/-- A value begins with no operator. -/
theorem ne_mark_of_run_value {rules : Rules} {t : Tree}
    (h : (value rules ctx).run c = some (t, d)) (hm : m ∈ ["+", "-", "!", "~", "++", "--"]) :
    c.token ≠ .mark m := by
  intro hc
  simp only [List.mem_cons, List.not_mem_nil, or_false] at hm
  rcases hm with rfl | rfl | rfl | rfl | rfl | rfl <;>
    simp [value, hc, markValue, openBrace, Cursor.asRegex] at h

theorem Accesses.unary {r : Nat} (h : Accesses awaits a) (hb : Begins awaits a)
    (hctx : Allows awaits ctx) (hr : 4 * a.tokens.length ≤ r + 3)
    (hm : goesOn m = false) (hplus : m ≠ "++") (hminus : m ≠ "--") :
    Reads (rules (r + 1) .unary ctx) a.tokens (.mark m :: rest) a.tree := by
  intro c hc hlen
  obtain ⟨t, d, k, u, e, hvalue, hsteps, hbare, he, hd, hbound, hk⟩ :=
    h r ctx c m rest c.start hctx hr hc hlen
  refine ⟨u, e, ?_, hbare, he, hbound⟩
  have haccess := hsteps.access hvalue (by omega) hm he.token
  have hupdated : (updated (rules r) ctx).run c = some (u, e) := by
    simp [updated, haccess, he.token, hplus, hminus]
  have hopens := hb.opens hc
  show (Script.unary (rules r) ctx).run c = some (u, e)
  rcases hopens with ⟨w, hw, hword, hawait⟩ | ⟨x, hx⟩ | ⟨v, hv⟩ | hmark
  · have h1 : w ≠ "typeof" := hword.ne (by decide)
    have h2 : w ≠ "void" := hword.ne (by decide)
    have h3 : w ≠ "delete" := hword.ne (by decide)
    have h4 : ¬ (w = "await" ∧ ctx.awaits = true) := by
      rintro ⟨rfl, hawaits⟩
      exact hawait (hctx.1 ▸ hawaits) rfl
    simp [Script.unary, hw, h1, h2, h3, h4, hupdated]
  · simp [Script.unary, hx, hupdated]
  · simp [Script.unary, hv, hupdated]
  · have h1 := ne_mark_of_run_value hvalue (m := "+") (by simp)
    have h2 := ne_mark_of_run_value hvalue (m := "-") (by simp)
    have hc : c.token = .mark "(" := by
      simp only [List.mem_cons, List.not_mem_nil, or_false] at hmark
      tauto
    simp [Script.unary, hc, hupdated]

theorem Begins.firstOperand {rules : Rules} {level : Nat} (h : Begins awaits a)
    (hc : Starts (a.tokens ++ rest) c) :
    (firstOperand rules ctx level).run c = (rules .unary ctx).run c := by
  rcases h.opens hc with ⟨w, hw, -⟩ | ⟨x, hx⟩ | ⟨v, hv⟩ | hmark
  · simp [Script.firstOperand, hw]
  · simp [Script.firstOperand, hx]
  · simp [Script.firstOperand, hv]
  · simp only [List.mem_cons, List.not_mem_nil, or_false] at hmark
    rcases hmark with hc | hc | hc <;> simp [Script.firstOperand, hc]

theorem reads_operation {n level : Nat} (hb : Begins awaits a)
    (h : Reads (rules n .unary ctx) a.tokens (.mark m :: rest) a.tree)
    (hm : ∀ ctx, level? ctx (.mark m) = none) :
    Reads (rules (n + 1) (.operation level) ctx) a.tokens (.mark m :: rest) a.tree := by
  intro c hc hlen
  obtain ⟨t, d, hrun, hbare, hd, hbound⟩ := h c hc hlen
  refine ⟨t, d, ?_, hbare, hd, hbound⟩
  have hstep : (operationStep (rules n) ctx level c.start t).run d = some (none, d) := by
    simp [operationStep, hd.token, hm]
  have hlist := @run_repeatUpTo_none d d Tree (operationStep (rules n) ctx level c.start) t
    (d.bound + 1) hstep
  show (operation (rules n) ctx level).run c = some (t, d)
  rw [operation_eq]
  simp [hb.firstOperand hc, hrun, run_iterate, hlist]

theorem Begins.isArrowHead (h : Begins awaits a) (hc : Starts (a.tokens ++ .mark m :: rest) c) :
    ¬ (c.token = .name "async" false ∧ isArrowHead c.next = true) := by
  rintro ⟨hw, harrow⟩
  obtain ⟨x, hx, -⟩ := h.next_mark hc hw (by decide)
  simp [Script.isArrowHead, hx] at harrow

theorem reads_assignment {n : Nat} (hctx : Allows awaits ctx) (hb : Begins awaits a)
    (h : Reads (rules n (.operation 0) ctx) a.tokens (.mark m :: rest) a.tree)
    (hm : m ∈ [",", ")", "]", ";"]) :
    Reads (rules (n + 1) .assignment ctx) a.tokens (.mark m :: rest) a.tree := by
  intro c hc hlen
  obtain ⟨t, d, hrun, hbare, hd, hbound⟩ := h c hc hlen
  refine ⟨t, d, ?_, hbare, hd, hbound⟩
  have hyield : ctx.yields = false := hctx.2
  have hassigned : (assigned (rules n) ctx c.start t).run d = some (t, d) := by
    have hm : m ∉ assignments := by
      simp only [List.mem_cons, List.not_mem_nil, or_false] at hm
      rcases hm with rfl | rfl | rfl | rfl <;> decide
    simp [assigned, hd.token, hm]
  have h1 : m ≠ "?" := by
    rintro rfl
    exact absurd hm (by decide)
  have h2 : m ≠ "=>" := by
    rintro rfl
    exact absurd hm (by decide)
  show (assignment (rules n) ctx).run c = some (t, d)
  simp [assignment, hyield, run_takeWordBefore, hb.isArrowHead hc, hrun, hd.token, h1, h2, hassigned]

theorem level?_closer (hm : m ∈ [",", ")", "]", ";", "="]) (ctx : Context) :
    level? ctx (.mark m) = none := by
  simp only [List.mem_cons, List.not_mem_nil, or_false] at hm
  rcases hm with rfl | rfl | rfl | rfl | rfl <;> rfl

theorem Accesses.assigns (h : Accesses awaits a) (hb : Begins awaits a) : Assigns awaits a := by
  intro n ctx m rest hctx hn hm
  obtain ⟨r, rfl⟩ : ∃ r, n = r + 3 := ⟨n - 3, by
    obtain ⟨t, ts, hts, -⟩ := hb
    rw [hts, List.length_cons] at hn
    omega⟩
  have hgoes : goesOn m = false ∧ m ≠ "++" ∧ m ≠ "--" := by
    simp only [List.mem_cons, List.not_mem_nil, or_false] at hm
    rcases hm with rfl | rfl | rfl | rfl <;> decide
  have hm' : m ∈ [",", ")", "]", ";", "="] := by
    simp only [List.mem_cons] at hm ⊢
    tauto
  have hunary := @Accesses.unary awaits ctx rest a m r h hb hctx hn hgoes.1 hgoes.2.1 hgoes.2.2
  exact reads_assignment hctx hb (reads_operation hb hunary (level?_closer hm')) hm

/-! ### Values with what follows them -/

theorem Accesses.member (h : Accesses awaits a) (p : String) :
    Accesses awaits ⟨a.tokens ++ [.mark ".", .name p false], branch (.member p false) [a.tree]⟩ := by
  intro r ctx c m rest start hctx hr hc hb
  simp only [List.length_append, List.length_cons, List.length_nil] at hr hb
  rw [List.append_assoc] at hc
  obtain ⟨t, d, k, u, e, hvalue, hsteps, hbare, he, hd, hbound, hk⟩ :=
    h r ctx c "." _ start hctx (by omega) hc (by omega)
  have hstep : (followed (rules r) ctx .all start ⟨u, false⟩).run e =
      some (some ⟨.node (.member p false) ⟨start, e.next.next.last⟩ [u], false⟩, e.next.next) := by
    simp [followed, run_take, he.token, propertyOf, he.next.token]
  refine ⟨t, d, k + 1, _, e.next.next, hvalue, hsteps.step hstep, ?_, he.next.next, hd, ?_, ?_⟩
  · simp [Tree.bare, Tree.bares, hbare, branch]
  · rw [bound_next, bound_next, hbound]
  · simp only [List.length_append, List.length_cons, List.length_nil]
    omega

theorem Accesses.element (h : Accesses awaits a) (hb : Assigns awaits b) :
    Accesses awaits ⟨a.tokens ++ .mark "[" :: b.tokens ++ [.mark "]"],
      branch (.element false) [a.tree, b.tree]⟩ := by
  intro r ctx c m rest start hctx hr hc hlen
  simp only [List.length_append, List.length_cons, List.length_nil] at hr hlen
  have hc : Starts (a.tokens ++ .mark "[" :: (b.tokens ++ .mark "]" :: .mark m :: rest)) c := by
    simpa using hc
  obtain ⟨t, d, k, u, e, hvalue, hsteps, hbare, he, hd, hbound, hk⟩ :=
    h r ctx c "[" _ start hctx (by omega) hc (by omega)
  obtain ⟨n, rfl⟩ : ∃ n, r = n + 1 := ⟨r - 1, by omega⟩
  have hindex := hb n ctx.bracketed "]" (.mark m :: rest) hctx (by omega) (by simp)
  obtain ⟨v, f, hrun, hbare', hf, hbound'⟩ := run_expression hindex (by decide) e.next he.next
    (by rw [bound_next, hbound]; omega)
  have hstep : (followed (rules (n + 1)) ctx .all start ⟨u, false⟩).run e =
      some (some ⟨.node (.element false) ⟨start, f.next.last⟩ [u, v], false⟩, f.next) := by
    simp [followed, run_take, he.token, elementOf, run_expect, hrun, hf.token]
  refine ⟨t, d, k + 1, _, f.next, hvalue, hsteps.step hstep, ?_, hf.next, hd, ?_, ?_⟩
  · simp [Tree.bare, Tree.bares, hbare, hbare', branch]
  · rw [bound_next, hbound', bound_next, hbound]
  · simp only [List.length_append, List.length_cons, List.length_nil]
    omega

theorem Begins.ne_mark {t : Token} {ts : List Token} (h : Begins awaits a) (ht : a.tokens = t :: ts)
    (hm : m ∉ ["(", "+", "-"]) : t ≠ .mark m := by
  obtain ⟨t', ts', hts, hopens, -⟩ := h
  rw [ht] at hts
  injection hts with hts
  rw [hts]
  exact hopens.ne_mark hm

theorem Assigns.spreadable {n : Nat} (h : Assigns awaits a) (hb : Begins awaits a)
    (hctx : Allows awaits ctx) (hn : 4 * a.tokens.length ≤ n)
    (hm : m ∈ [",", ")", "]", ";"]) :
    Reads (spreadable (rules n) ctx) a.tokens (.mark m :: rest) a.tree := by
  intro c hc hlen
  obtain ⟨t, d, hrun, hbare, hd, hbound⟩ := h n ctx.bracketed m rest hctx hn hm c hc hlen
  have hdots : c.token ≠ .mark "..." := (hb.opens hc).ne_mark (by decide)
  exact ⟨t, d, by simp [Script.spreadable, run_take, hdots, hrun], hbare, hd, hbound⟩

variable {items : List Item}

/-- Phrases in parentheses are read. -/
theorem run_separated_phrases {n : Nat} (hctx : Allows awaits ctx)
    (hitems : ∀ a ∈ items, Begins awaits a ∧ Assigns awaits a) (hn : 4 * (commaTokens items).length ≤ n)
    (hc : Starts (commaTokens items ++ .mark ")" :: rest) c)
    (hlen : (commaTokens items).length ≤ c.bound) :
    ∃ ts d, (separated ")" (spreadable (rules n) ctx)).run c = some ((ts, false), d) ∧
      Tree.bares ts = items.map Item.tree ∧ Starts rest d ∧ d.bound = c.bound := by
  have hitem : ∀ a ∈ items, (∃ t ts, a.tokens = t :: ts ∧ t ≠ .mark ")") ∧
      ∀ m rest, m = .mark "," ∨ m = .mark ")" →
        Reads (spreadable (rules n) ctx) a.tokens (m :: rest) a.tree := by
    intro a ha
    obtain ⟨hbegins, hassigns⟩ := hitems a ha
    have := length_le_commaTokens ha
    obtain ⟨t, ts, hts, -⟩ := id hbegins
    refine ⟨⟨t, ts, hts, hbegins.ne_mark hts (by decide)⟩, ?_⟩
    rintro m rest (rfl | rfl)
    · exact hassigns.spreadable hbegins hctx (by omega) (by decide)
    · exact hassigns.spreadable hbegins hctx (by omega) (by decide)
  obtain ⟨ts, d, hrun, hbare, hd, hbound⟩ := run_separated (by decide) hitem hc hlen
  exact ⟨ts, d, hrun, by rw [Tree.bares_eq_map, hbare], hd, hbound⟩

theorem Accesses.call (h : Accesses awaits a) (hitems : ∀ b ∈ items, Begins awaits b ∧ Assigns awaits b) :
    Accesses awaits ⟨a.tokens ++ .mark "(" :: commaTokens items ++ [.mark ")"],
      branch (.call false) (a.tree :: items.map Item.tree)⟩ := by
  intro r ctx c m rest start hctx hr hc hlen
  simp only [List.length_append, List.length_cons, List.length_nil] at hr hlen
  have hc : Starts (a.tokens ++ .mark "(" :: (commaTokens items ++ .mark ")" :: .mark m :: rest)) c := by
    simpa using hc
  obtain ⟨t, d, k, u, e, hvalue, hsteps, hbare, he, hd, hbound, hk⟩ :=
    h r ctx c "(" _ start hctx (by omega) hc (by omega)
  obtain ⟨ts, f, hrun, hbares, hf, hbound'⟩ := @run_separated_phrases e.next awaits ctx _ items r hctx hitems
    (by omega) he.next (by rw [bound_next, hbound]; omega)
  have hstep : (followed (rules r) ctx .all start ⟨u, false⟩).run e =
      some (some ⟨.node (.call false) ⟨start, f.last⟩ (u :: ts), false⟩, f) := by
    simp [followed, run_take, he.token, callOf, arguments, run_expect, hrun]
  refine ⟨t, d, k + 1, _, f, hvalue, hsteps.step hstep, ?_, hf, hd, ?_, ?_⟩
  · simp [Tree.bare, Tree.bares, hbare, hbares, branch]
  · rw [hbound', bound_next, hbound]
  · simp only [List.length_append, List.length_cons, List.length_nil]
    omega

/-! ### Values on their own -/

/-- A phrase that is read as a value with nothing after it. -/
theorem Accesses.of_value
    (h : ∀ (r : Nat) (ctx : Context) (c : Cursor) (m : String) (rest : List Token),
      Allows awaits ctx → 4 * a.tokens.length ≤ r + 3 → Starts (a.tokens ++ .mark m :: rest) c →
      a.tokens.length ≤ c.bound →
      ∃ t d, (value (rules r) ctx).run c = some (t, d) ∧ t.bare = a.tree ∧
        Starts (.mark m :: rest) d ∧ d.bound = c.bound)
    (hne : a.tokens ≠ []) : Accesses awaits a := by
  intro r ctx c m rest start hctx hr hc hlen
  obtain ⟨t, d, hvalue, hbare, hd, hbound⟩ := h r ctx c m rest hctx hr hc hlen
  exact ⟨t, d, 0, t, d, hvalue, .refl t d, hbare, hd, hbound, hbound, List.length_pos_iff.2 hne⟩

theorem accesses_variable (hw : Names awaits w) :
    Accesses awaits ⟨[.name w false], branch (.identifier w) []⟩ := by
  refine .of_value (fun r ctx c m rest hctx _ hc _ => ?_) (by simp)
  have hnext : c.next.token = .mark m := hc.next.token
  have hrun := @run_value_variable c w awaits ctx (rules r) hctx hc.token hw (by simp [hnext])
  exact ⟨_, _, hrun, rfl, hc.next, bound_next c⟩

theorem accesses_this : Accesses awaits ⟨[.name "this" false], branch .this []⟩ := by
  refine .of_value (fun r ctx c m rest _ _ hc _ => ⟨.node .this ⟨c.start, c.next.last⟩ [], c.next, ?_, rfl, hc.next, bound_next c⟩) (by simp)
  simp [value, wordValue, hc.token]

theorem accesses_number (v : Decimal.Double) :
    Accesses awaits ⟨[.number v], branch (.number v) []⟩ := by
  refine .of_value (fun r ctx c m rest _ _ hc _ => ⟨.node (.number v) ⟨c.start, c.next.last⟩ [], c.next, ?_, rfl, hc.next, bound_next c⟩) (by simp)
  simp [value, hc.token]

theorem accesses_string (s : String) :
    Accesses awaits ⟨[.string s], branch (.string s) []⟩ := by
  refine .of_value (fun r ctx c m rest _ _ hc _ => ⟨.node (.string s) ⟨c.start, c.next.last⟩ [], c.next, ?_, rfl, hc.next, bound_next c⟩) (by simp)
  simp [value, hc.token]

theorem Assigns.paren (h : Assigns awaits a) (hb : Begins awaits a) (hrest : takesRest a.tree = false) :
    Accesses awaits ⟨.mark "(" :: a.tokens ++ [.mark ")"], branch .paren [a.tree]⟩ := by
  refine .of_value (fun r ctx c m rest hctx hr hc hlen => ?_) (by simp)
  simp only [List.length_append, List.length_cons, List.length_nil] at hr hlen
  have hc : Starts (.mark "(" :: (commaTokens [a] ++ .mark ")" :: .mark m :: rest)) c := by
    simpa [commaTokens] using hc
  obtain ⟨ts, d, hrun, hbares, hd, hbound⟩ := @run_separated_phrases c.next awaits ctx _ [a] r hctx
    (by simpa using ⟨hb, h⟩) (by rw [commaTokens]; omega) hc.next
    (by rw [bound_next, commaTokens]; omega)
  obtain ⟨t, rfl⟩ : ∃ t, ts = [t] := by
    rw [Tree.bares_eq_map] at hbares
    exact List.length_eq_one_iff.1 (by simpa using congrArg List.length hbares)
  have hbare : t.bare = a.tree := by simpa [Tree.bares] using hbares
  have ht : takesRest t = false := by
    rw [← hrest, ← hbare]
    cases t
    rfl
  refine ⟨.node .paren ⟨c.start, d.last⟩ [t], d, ?_, ?_, hd, by rw [hbound, bound_next]⟩
  · simp [value, hc.token, markValue, parenthesized, run_expect, hrun, ht]
  · simp [Tree.bare, Tree.bares, hbare, branch]

/-- The variable after `new` goes up to the parenthesis. -/
theorem run_access_callee {rules : Rules} (hctx : Allows awaits ctx) (h : c.token = .name w false)
    (hw : Names awaits w) (hnext : c.next.token = .mark "(") :
    (access rules ctx .callee).run c =
      some (.node (.identifier w) ⟨c.start, c.next.last⟩ [], c.next) := by
  have hvalue := @run_value_variable c w awaits ctx rules hctx h hw (by simp [hnext])
  have hstop : (followed rules ctx .callee c.start
      ⟨.node (.identifier w) ⟨c.start, c.next.last⟩ [], false⟩).run c.next = some (none, c.next) := by
    simp [followed, run_take, hnext]
  have hlist := @run_repeatUpTo_none _ _ _ _ _ (c.bound + 1) hstop
  simp [Script.access, hvalue, run_iterate, hlist]

theorem accesses_create (hw : Names awaits w) (hitems : ∀ b ∈ items, Begins awaits b ∧ Assigns awaits b) :
    Accesses awaits ⟨[.name "new" false, .name w false, .mark "("] ++ commaTokens items ++ [.mark ")"],
      branch .create (branch (.identifier w) [] :: items.map Item.tree)⟩ := by
  refine .of_value (fun r ctx c m rest hctx hr hc hlen => ?_) (by simp)
  simp only [List.length_append, List.length_cons, List.length_nil] at hr hlen
  have hc : Starts (.name "new" false :: .name w false :: .mark "(" ::
      (commaTokens items ++ .mark ")" :: .mark m :: rest)) c := by
    simpa using hc
  obtain ⟨n, rfl⟩ : ∃ n, r = n + 1 := ⟨r - 1, by omega⟩
  have hcallee : (rules (n + 1) (.access .callee) ctx).run c.next =
      some (.node (.identifier w) ⟨c.next.start, c.next.next.last⟩ [], c.next.next) :=
    run_access_callee hctx hc.next.token hw hc.next.next.token
  obtain ⟨ts, d, hrun, hbares, hd, hbound⟩ := @run_separated_phrases c.next.next.next awaits ctx _ items
    (n + 1) hctx hitems (by omega) hc.next.next.next (by simp; omega)
  have himport : w ≠ "import" := hw.ne (by decide)
  have hvalue : (value (rules (n + 1)) ctx).run c =
      some (.node .create ⟨c.start, d.last⟩
        (.node (.identifier w) ⟨c.next.start, c.next.next.last⟩ [] :: ts), d) := by
    simp [value, hc.token, wordValue, creation, run_expectWord, run_take, hc.next.token, himport,
      hcallee, Tree.label, hc.next.next.token, arguments, run_expect, hrun]
  exact ⟨_, d, hvalue, by simp [Tree.bare, Tree.bares, hbares, branch], hd, by simp [hbound]⟩

end Relabel.Fragment
