import Relabel.Proofs.Script.Bare
import Relabel.Script.Rule

/-!
# Token streams

`Starts ts c`: the cursor `c` stands on the first of the tokens `ts`, and the others follow it. Every
step of the grammar is run on such a cursor. `Reads m ts rest t` says what a rule does there: it reads
the tokens `ts`, builds the tree `t` up to its spans, and leaves a cursor on `rest`.
-/

namespace Relabel.Script

/-- The cursor stands on the first of some tokens, and the others follow. A `++` stands on the line
of the token before it. -/
def Starts : List Token → Cursor → Prop
  | [], _ => True
  | t :: ts, c => c.token = t ∧ (t = .mark "++" → c.newline = false) ∧ Starts ts c.next

variable {c c' : Cursor} {t t' : Token} {ts rest : List Token}

theorem Starts.token (h : Starts (t :: ts) c) : c.token = t := h.1

theorem Starts.token_append {us : List Token} (h : Starts (ts ++ rest) c) (hts : ts = t :: us) :
    c.token = t := by
  rw [hts] at h
  exact h.1

theorem Starts.next (h : Starts (t :: ts) c) : Starts ts c.next := h.2.2

@[simp] theorem bound_next (c : Cursor) : c.next.bound = c.bound := by
  rw [Cursor.next, Cursor.reading]
  cases gap? false c.stop .blank c.rest with
  | none => rfl
  | some gap =>
    simp only [Option.bind_eq_bind, Option.bind_some]
    cases lexeme? c.bound gap.rest <;> rfl

/-- A rule reads the tokens `ts` before `rest` and builds the tree `t`. -/
def Reads (m : Reading Tree) (ts rest : List Token) (t : Tree) : Prop :=
  ∀ c, Starts (ts ++ rest) c → ts.length ≤ c.bound →
    ∃ t' c', m.run c = some (t', c') ∧ t'.bare = t ∧ Starts rest c' ∧ c'.bound = c.bound

/-! ### Lists of phrases -/

/-- A phrase that a rule reads: its tokens and its tree. -/
structure Item where
  tokens : List Token
  tree : Tree

/-- The tokens of phrases between commas. -/
def commaTokens : List Item → List Token
  | [] => []
  | [a] => a.tokens
  | a :: b :: rest => a.tokens ++ .mark "," :: commaTokens (b :: rest)

theorem length_le_commaTokens : ∀ {items : List Item} {a : Item}, a ∈ items →
    a.tokens.length ≤ (commaTokens items).length
  | [], a, h => by cases h
  | [b], a, h => by rw [List.mem_singleton.1 h, commaTokens]
  | b :: d :: rest, a, h => by
    rw [commaTokens, List.length_append, List.length_cons]
    rcases List.mem_cons.1 h with rfl | h
    · omega
    · have := length_le_commaTokens h
      omega

theorem length_le_length_commaTokens : ∀ {items : List Item}, (∀ a ∈ items, a.tokens ≠ []) →
    items.length ≤ (commaTokens items).length
  | [], _ => Nat.le_refl 0
  | [a], h => by
    rw [commaTokens]
    exact List.length_pos_iff.2 (h a (List.mem_cons_self ..))
  | a :: b :: rest, h => by
    have := length_le_length_commaTokens fun x hx => h x (List.mem_cons_of_mem a hx)
    simp only [commaTokens, List.length_append, List.length_cons] at this ⊢
    omega

/-- The tokens of phrases that follow each other. -/
def itemTokens (items : List Item) : List Token :=
  items.flatMap Item.tokens

variable {items : List Item}

theorem length_le_itemTokens {a : Item} (h : a ∈ items) :
    a.tokens.length ≤ (itemTokens items).length := by
  obtain ⟨l₁, l₂, rfl⟩ := List.append_of_mem h
  simp only [itemTokens, List.flatMap_append, List.flatMap_cons, List.length_append]
  omega

theorem length_le_length_itemTokens (h : ∀ a ∈ items, a.tokens ≠ []) :
    items.length ≤ (itemTokens items).length := by
  induction items with
  | nil => exact Nat.le_refl 0
  | cons a items ih =>
    have ha := List.length_pos_iff.2 (h a (List.mem_cons_self ..))
    have := ih fun x hx => h x (List.mem_cons_of_mem a hx)
    simp only [itemTokens, List.flatMap_cons, List.length_append, List.length_cons] at this ⊢
    omega

/-! ### Tokens that are read again -/

namespace Cursor

theorem last_reread (c : Cursor) (l : Option Lexeme) :
    (c.reread l).last = c.last ∧ (c.reread l).start = c.start := by
  cases l <;> exact ⟨rfl, rfl⟩

theorem last_asRegex (c : Cursor) : c.asRegex.last = c.last ∧ c.asRegex.start = c.start := by
  rw [asRegex]
  split
  · exact last_reread ..
  · exact last_reread ..
  · exact ⟨rfl, rfl⟩

theorem last_asTemplate (c : Cursor) : c.asTemplate.last = c.last ∧ c.asTemplate.start = c.start := by
  rw [asTemplate]
  split
  · exact last_reread ..
  · exact ⟨rfl, rfl⟩

end Cursor

namespace Reading
variable {α : Type} {mark word : String} {after : Cursor → Bool}

/-! ### Single steps -/

@[simp] theorem run_token (c : Cursor) : token.run c = some (c.token, c) := rfl

@[simp] theorem run_here (c : Cursor) : here.run c = some (c.start, c) := rfl

@[simp] theorem run_advance (c : Cursor) : advance.run c = some ((), c.next) := rfl

@[simp] theorem run_onSameLine (c : Cursor) : onSameLine.run c = some (!c.newline, c) := rfl

@[simp] theorem run_sees (mark : String) (c : Cursor) :
    (sees mark).run c = some (c.token == .mark mark, c) := rfl

@[simp] theorem run_seesWord (word : String) (c : Cursor) :
    (seesWord word).run c = some (c.token == .name word false, c) := rfl

@[simp] theorem run_seesWordBefore (word : String) (after : Cursor → Bool) (c : Cursor) :
    (seesWordBefore word after).run c = some (c.token == .name word false && after c.next, c) := rfl

@[simp] theorem run_node (start : Nat) (label : Label) (children : List Tree) (c : Cursor) :
    (node start label children).run c = some (.node label ⟨start, c.last⟩ children, c) := rfl

@[simp] theorem run_leaf (label : Label) (c : Cursor) :
    (leaf label).run c = some (.node label ⟨c.start, c.next.last⟩ [], c.next) := rfl

theorem run_take (mark : String) (c : Cursor) :
    (take mark).run c = if c.token = .mark mark then some (true, c.next) else some (false, c) := by
  by_cases h : c.token = .mark mark <;> simp [take, h]

theorem run_takeWord (word : String) (c : Cursor) :
    (takeWord word).run c =
      if c.token = .name word false then some (true, c.next) else some (false, c) := by
  by_cases h : c.token = .name word false <;> simp [takeWord, h]

theorem run_takeWordBefore (word : String) (after : Cursor → Bool) (c : Cursor) :
    (takeWordBefore word after).run c =
      if c.token = .name word false ∧ after c.next = true then some (true, c.next)
      else some (false, c) := by
  by_cases h : c.token = .name word false <;> by_cases ha : after c.next = true <;>
    simp [takeWordBefore, h, ha]

theorem run_expect (h : c.token = .mark mark) : (expect mark).run c = some ((), c.next) := by
  simp [expect, run_take, h]

theorem run_expectWord (h : c.token = .name word false) :
    (expectWord word).run c = some ((), c.next) := by
  simp [expectWord, run_takeWord, h]

theorem run_semicolon (h : c.token = .mark ";") : semicolon.run c = some ((), c.next) := by
  simp [semicolon, run_take, h]

theorem run_identifier {ctx : Context} {text : String} {escaped : Bool}
    (h : c.token = .name text escaped) (ht : ctx.isIdentifier text = true) :
    (identifier ctx).run c = some (.node (.identifier text) ⟨c.start, c.next.last⟩ [], c.next) := by
  simp [identifier, h, ht]

theorem run_iterate (step : α → Reading (Option α)) (a : α) (c : Cursor) :
    (iterate step a).run c = (repeatUpTo step (c.bound + 2) a).run c := rfl

theorem run_repeatUpTo_some {step : α → Reading (Option α)} {a b : α} {n : Nat}
    (h : (step a).run c = some (some b, c')) :
    (repeatUpTo step (n + 1) a).run c = (repeatUpTo step n b).run c' := by
  simp [repeatUpTo, h]

theorem run_repeatUpTo_none {step : α → Reading (Option α)} {a : α} {n : Nat}
    (h : (step a).run c = some (none, c')) :
    (repeatUpTo step (n + 1) a).run c = some (a, c') := by
  simp [repeatUpTo, h]

/-- More rounds than are needed change nothing. -/
theorem run_repeatUpTo_mono {step : α → Reading (Option α)} {a : α} {r : α × Cursor} {n m : Nat} (hn : n ≤ m)
    (h : (repeatUpTo step n a).run c = some r) : (repeatUpTo step m a).run c = some r := by
  induction n generalizing m a c with
  | zero => cases h
  | succ n ih =>
    obtain ⟨m, rfl⟩ : ∃ k, m = k + 1 := ⟨m - 1, by omega⟩
    rw [repeatUpTo, StateT.run_bind] at h ⊢
    cases hstep : (step a).run c with
    | none => simp [hstep] at h
    | some p =>
      obtain ⟨o, d⟩ := p
      rw [hstep] at h
      cases o with
      | none => exact h
      | some b => exact ih (Nat.le_of_succ_le_succ hn) h

/-! ### Lists -/

/-- One round of `separated`. -/
def separatedStep (close : String) (item : Reading Tree) (state : List Tree × Bool × Bool) :
    Reading (Option (List Tree × Bool × Bool)) := do
  let (items, trailing, done) := state
  if done then return none
  else if ← take close then return some (items, trailing, true)
  else
    guard (items.isEmpty || trailing)
    let item ← item
    return some (item :: items, ← take ",", false)

theorem separated_eq (close : String) (item : Reading Tree) :
    separated close item = (do
      let (items, trailing, _) ← iterate (separatedStep close item) ([], false, false)
      return (items.reverse, trailing)) := rfl

variable {close : String} {item : Reading Tree} {acc : List Tree} {n : Nat}
  {trailing : Bool}

theorem run_separatedStep_close (h : c.token = .mark close) :
    (repeatUpTo (separatedStep close item) (n + 2) (acc, trailing, false)).run c =
      some ((acc, trailing, true), c.next) := by
  have h1 : (separatedStep close item (acc, trailing, false)).run c =
      some (some (acc, trailing, true), c.next) := by
    simp [separatedStep, run_take, h]
  have h2 : (separatedStep close item (acc, trailing, true)).run c.next = some (none, c.next) := by
    simp [separatedStep]
  rw [run_repeatUpTo_some h1, run_repeatUpTo_none h2]

theorem run_separatedStep_item {t' : Tree} (h : c.token ≠ .mark close)
    (hacc : acc = [] ∨ trailing = true) (hitem : item.run c = some (t', c')) :
    (separatedStep close item (acc, trailing, false)).run c =
      if c'.token = .mark "," then some (some (t' :: acc, true, false), c'.next)
      else some (some (t' :: acc, false, false), c') := by
  have hguard : (acc.isEmpty || trailing) = true := by
    rcases hacc with rfl | rfl <;> simp
  by_cases hc : c'.token = .mark "," <;> simp [separatedStep, run_take, h, hguard, hitem, hc]

/-- The rounds over items that are read, up to the closing mark. -/
theorem run_separatedStep (hclose : close ≠ ",")
    (hitem : ∀ a ∈ items, (∃ t ts, a.tokens = t :: ts ∧ t ≠ .mark close) ∧
      ∀ m rest, m = .mark "," ∨ m = .mark close → Reads item a.tokens (m :: rest) a.tree)
    (hne : items ≠ []) (hacc : acc = [] ∨ trailing = true) (hn : items.length + 2 ≤ n)
    (hc : Starts (commaTokens items ++ .mark close :: rest) c)
    (hb : ∀ a ∈ items, a.tokens.length ≤ c.bound) :
    ∃ (ts : List Tree) (c' : Cursor),
      (repeatUpTo (separatedStep close item) n (acc, trailing, false)).run c =
        some ((ts.reverse ++ acc, false, true), c') ∧
      ts.map Tree.bare = items.map Item.tree ∧ Starts rest c' ∧ c'.bound = c.bound := by
  induction items generalizing acc trailing n c with
  | nil => exact absurd rfl hne
  | cons a items ih =>
    obtain ⟨⟨t, ts, hts, ht⟩, hread⟩ := hitem a (List.mem_cons_self ..)
    obtain ⟨n, rfl⟩ : ∃ k, n = k + 1 := ⟨n - 1, by simp at hn; omega⟩
    have hba := hb a (List.mem_cons_self ..)
    have htoken : ∀ {us}, Starts (a.tokens ++ us) c → c.token ≠ .mark close := fun h => by
      rw [h.token_append hts]
      exact ht
    cases items with
    | nil =>
      obtain ⟨t', c₁, hrun, hbare, hc₁, hb₁⟩ := hread (.mark close) rest (.inr rfl) c hc hba
      have hstep := run_separatedStep_item (htoken hc) hacc hrun
      have hcomma : c₁.token ≠ .mark "," := by
        rw [hc₁.token]
        simpa using hclose
      rw [if_neg hcomma] at hstep
      obtain ⟨n, rfl⟩ : ∃ k, n = k + 2 := ⟨n - 2, by simp at hn; omega⟩
      refine ⟨[t'], c₁.next, ?_, by simp [hbare], hc₁.next, by simp [hb₁]⟩
      rw [run_repeatUpTo_some hstep, run_separatedStep_close hc₁.token]
      rfl
    | cons b items =>
      have hc : Starts (a.tokens ++
          (.mark "," :: (commaTokens (b :: items) ++ .mark close :: rest))) c := by
        rw [commaTokens, List.append_assoc] at hc
        exact hc
      obtain ⟨t', c₁, hrun, hbare, hc₁, hb₁⟩ := hread (.mark ",") _ (.inl rfl) c hc hba
      have hstep := run_separatedStep_item (htoken hc) hacc hrun
      rw [if_pos hc₁.token] at hstep
      have hb₂ : c₁.next.bound = c.bound := by rw [bound_next, hb₁]
      have hn : (b :: items).length + 2 ≤ n := by
        rw [List.length_cons] at hn
        omega
      obtain ⟨ts', c₂, hrun₂, hbares, hc₂, hbound⟩ := ih
        (fun x hx => hitem x (List.mem_cons_of_mem a hx)) (by simp) (.inr rfl) hn hc₁.next
        (fun x hx => by rw [hb₂]; exact hb x (List.mem_cons_of_mem a hx))
      refine ⟨t' :: ts', c₂, ?_, by simp [hbare, hbares], hc₂, by rw [hbound, hb₂]⟩
      rw [run_repeatUpTo_some hstep, hrun₂, List.reverse_cons, List.append_assoc]
      rfl

/-- Items between commas are read up to the closing mark. -/
theorem run_separated (hclose : close ≠ ",")
    (hitem : ∀ a ∈ items, (∃ t ts, a.tokens = t :: ts ∧ t ≠ .mark close) ∧
      ∀ m rest, m = .mark "," ∨ m = .mark close → Reads item a.tokens (m :: rest) a.tree)
    (hc : Starts (commaTokens items ++ .mark close :: rest) c)
    (hb : (commaTokens items).length ≤ c.bound) :
    ∃ ts c', (separated close item).run c = some ((ts, false), c') ∧
      ts.map Tree.bare = items.map Item.tree ∧ Starts rest c' ∧ c'.bound = c.bound := by
  rw [separated_eq]
  cases items with
  | nil =>
    refine ⟨[], c.next, ?_, rfl, hc.next, bound_next c⟩
    have hrun := @run_separatedStep_close c close item [] c.bound false hc.token
    simp [run_iterate, hrun]
  | cons a items =>
    have hlen : (a :: items).length ≤ c.bound := by
      refine Nat.le_trans (length_le_length_commaTokens fun x hx => ?_) hb
      obtain ⟨⟨t, ts, hts, -⟩, -⟩ := hitem x hx
      rw [hts]
      exact List.cons_ne_nil t ts
    obtain ⟨ts, c', hrun, hbare, hc', hb'⟩ := @run_separatedStep c rest (a :: items) close item []
      (c.bound + 2) false hclose hitem (by simp) (.inl rfl) (by omega) hc
      fun x hx => Nat.le_trans (length_le_commaTokens hx) hb
    refine ⟨ts, c', ?_, hbare, hc', hb'⟩
    simp [run_iterate, hrun]

/-- One round of `itemsTo`. -/
def itemsStep (close : String) (item : Reading Tree) (items : List Tree) :
    Reading (Option (List Tree)) := do
  if ← take close then return none
  else return some ((← item) :: items)

theorem itemsTo_eq (close : String) (item : Reading Tree) :
    itemsTo close item = (do
      let items ← iterate (itemsStep close item) []
      return items.reverse) := rfl

theorem run_itemsStep
    (hitem : ∀ a ∈ items, (∃ t ts, a.tokens = t :: ts ∧ t ≠ .mark close) ∧
      ∀ rest, Reads item a.tokens rest a.tree)
    (hn : items.length + 1 ≤ n) (hc : Starts (itemTokens items ++ .mark close :: rest) c)
    (hb : ∀ a ∈ items, a.tokens.length ≤ c.bound) :
    ∃ (ts : List Tree) (c' : Cursor),
      (repeatUpTo (itemsStep close item) n acc).run c = some (ts.reverse ++ acc, c') ∧
      ts.map Tree.bare = items.map Item.tree ∧ Starts rest c' ∧ c'.bound = c.bound := by
  induction items generalizing acc n c with
  | nil =>
    obtain ⟨n, rfl⟩ : ∃ k, n = k + 1 := ⟨n - 1, by simp at hn; omega⟩
    have hstep : (itemsStep close item acc).run c = some (none, c.next) := by
      simp [itemsStep, run_take, hc.token]
    exact ⟨[], c.next, run_repeatUpTo_none hstep, rfl, hc.next, bound_next c⟩
  | cons a items ih =>
    obtain ⟨⟨t, ts, hts, ht⟩, hread⟩ := hitem a (List.mem_cons_self ..)
    obtain ⟨n, rfl⟩ : ∃ k, n = k + 1 := ⟨n - 1, by simp at hn; omega⟩
    rw [itemTokens, List.flatMap_cons, List.append_assoc] at hc
    have htoken : c.token ≠ .mark close := by
      rw [hc.token_append hts]
      exact ht
    obtain ⟨t', c₁, hrun, hbare, hc₁, hb₁⟩ := hread _ c hc (hb a (List.mem_cons_self ..))
    have hstep : (itemsStep close item acc).run c = some (some (t' :: acc), c₁) := by
      simp [itemsStep, run_take, htoken, hrun]
    have hn : items.length + 1 ≤ n := by
      rw [List.length_cons] at hn
      omega
    obtain ⟨ts', c₂, hrun₂, hbares, hc₂, hb₂⟩ := ih
      (fun x hx => hitem x (List.mem_cons_of_mem a hx)) hn hc₁
      (fun x hx => by rw [hb₁]; exact hb x (List.mem_cons_of_mem a hx))
    refine ⟨t' :: ts', c₂, ?_, by simp [hbare, hbares], hc₂, by rw [hb₂, hb₁]⟩
    rw [run_repeatUpTo_some hstep, hrun₂, List.reverse_cons, List.append_assoc]
    rfl

/-- Phrases that follow each other are read up to the closing mark. -/
theorem run_itemsTo
    (hitem : ∀ a ∈ items, (∃ t ts, a.tokens = t :: ts ∧ t ≠ .mark close) ∧
      ∀ rest, Reads item a.tokens rest a.tree)
    (hc : Starts (itemTokens items ++ .mark close :: rest) c)
    (hb : (itemTokens items).length ≤ c.bound) :
    ∃ ts c', (itemsTo close item).run c = some (ts, c') ∧
      ts.map Tree.bare = items.map Item.tree ∧ Starts rest c' ∧ c'.bound = c.bound := by
  have hlen : items.length ≤ (itemTokens items).length :=
    length_le_length_itemTokens fun a ha => by
      obtain ⟨⟨t, ts, hts, -⟩, -⟩ := hitem a ha
      rw [hts]
      exact List.cons_ne_nil t ts
  obtain ⟨ts, c', hrun, hbare, hc', hb'⟩ := @run_itemsStep c rest items close item [] (c.bound + 2)
    hitem (by omega) hc fun a ha => Nat.le_trans (length_le_itemTokens ha) hb
  refine ⟨ts, c', ?_, hbare, hc', hb'⟩
  rw [itemsTo_eq]
  simp [run_iterate, hrun]

end Reading

end Relabel.Script
