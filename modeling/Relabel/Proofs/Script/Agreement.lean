import Relabel.Proofs.Script.Sequel

/-!
# Steps in front of another line

`Agrees s p e m m'`: where the step `m` reads a program to its end, the step `m'` reads it in front of the
line `s` and gives the same. It is enough that this holds at tokens with `p`; at the end of the program `m`
reads nothing and gives a result with `e`. Steps agree if what they are put together from does, so agreement
is a class: an instance for each way to put steps together, and one for each rule of the grammar.
-/

namespace Relabel.Script
open Reading

class Agrees {α : Type} (s : Sequel) (p : Token → Prop) (e : α → Prop) (m m' : Reading α) : Prop where
  sound : ∀ {c a d}, p c.token → m.run c = some (a, d) → d.Sound → c.Sound
  alike : ∀ {c c' a d}, s.Alike c c' → p c.token → m.run c = some (a, d) → d.Sound →
    ∃ d', m'.run c' = some (a, d') ∧ s.Alike d d'
  atEnd : ∀ {c a d}, c.token = .stop → p .stop → m.run c = some (a, d) → d = c ∧ e a

/-- Steps that agree wherever they begin. -/
abbrev Keeps {α : Type} (s : Sequel) (m m' : Reading α) : Prop :=
  Agrees s (fun _ => True) (fun _ => True) m m'

/-- Steps that agree, and need a token at least. -/
abbrev Needs {α : Type} (s : Sequel) (m m' : Reading α) : Prop :=
  Agrees s (fun _ => True) (fun _ => False) m m'

namespace Agrees
variable {s : Sequel} {α β : Type} {p q : Token → Prop} {e e' : α → Prop} {f : β → Prop} {m m' m₁ : Reading α}
  {k k' : α → Reading β} {a : α} {b : β} {c c' d : Cursor} {t : Token} {mark word : String}

/-! ### Sequences -/

theorem mono (h : Agrees s p e m m') (hq : ∀ t, q t → p t) (he : ∀ a, e a → e' a) : Agrees s q e' m m' :=
  ⟨fun ht => h.sound (hq _ ht), fun ha ht => h.alike ha (hq _ ht), fun hc ht hrun =>
    (h.atEnd hc (hq _ ht) hrun).imp_right (he _)⟩

instance (priority := low) keeps_of_needs [h : Needs s m m'] : Keeps s m m' :=
  h.mono (fun _ h => h) fun _ _ => trivial

/-- A step that needs a token does so at each token. -/
instance (priority := low) of_needs [h : Needs s m m'] : Agrees s p e m m' :=
  h.mono (fun _ _ => trivial) fun _ => False.elim

theorem of_keeps (h : Keeps s m m') : Agrees s p (fun _ => True) m m' :=
  h.mono (fun _ _ => trivial) fun _ h => h

/-- What fails at the end of the program agrees there with everything. -/
theorem of_fails (h : Agrees s p (fun _ => False) m m₁) (hp : ∀ t, q t → t = .stop ∧ p .stop) :
    Agrees s q e m m' := by
  have hnone {c : Cursor} {a : α} {d : Cursor} (ht : q c.token) (hrun : m.run c = some (a, d)) : False :=
    (h.atEnd (hp _ ht).1 (hp _ ht).2 hrun).2
  exact ⟨fun ht hrun => (hnone ht hrun).elim, fun _ ht hrun => (hnone ht hrun).elim,
    fun hc ht hrun => (hnone (hc ▸ ht) hrun).elim⟩

theorem run_bind (h : (m >>= k).run c = some (b, d)) :
    ∃ a c₁, m.run c = some (a, c₁) ∧ (k a).run c₁ = some (b, d) := by
  rw [StateT.run_bind] at h
  obtain ⟨⟨a, c₁⟩, h₁, h₂⟩ := Option.bind_eq_some_iff.1 h
  exact ⟨a, c₁, h₁, h₂⟩

theorem run_bind_of {c₁ : Cursor} (h : m.run c = some (a, c₁)) (h' : (k a).run c₁ = some (b, d)) :
    (m >>= k).run c = some (b, d) := by
  rw [StateT.run_bind, h]
  exact h'

protected theorem bind (h : Agrees s p e m m')
    (hk : ∀ a, Agrees s (fun _ => True) (fun b => e a → f b) (k a) (k' a)) :
    Agrees s p f (m >>= k) (m' >>= k') := by
  refine ⟨fun ht hrun hd => ?_, fun ha ht hrun hd => ?_, fun hc ht hrun => ?_⟩
  · obtain ⟨a, c₁, h₁, h₂⟩ := run_bind hrun
    exact h.sound ht h₁ ((hk a).sound trivial h₂ hd)
  · obtain ⟨a, c₁, h₁, h₂⟩ := run_bind hrun
    obtain ⟨c₁', h₁', ha₁⟩ := h.alike ha ht h₁ ((hk a).sound trivial h₂ hd)
    obtain ⟨d', h₂', hd'⟩ := (hk a).alike ha₁ trivial h₂ hd
    exact ⟨d', run_bind_of h₁' h₂', hd'⟩
  · obtain ⟨a, c₁, h₁, h₂⟩ := run_bind hrun
    obtain ⟨rfl, he⟩ := h.atEnd hc ht h₁
    exact ((hk a).atEnd hc trivial h₂).imp_right fun hf => hf he

/-- Behind a token everything else only has to agree. -/
theorem after (h : Agrees s p (fun _ => False) m m') (hk : ∀ a, Keeps s (k a) (k' a)) :
    Agrees s p f (m >>= k) (m' >>= k') :=
  h.bind fun a => (hk a).mono (fun _ h => h) fun _ _ => False.elim

/-- A step that reads nothing at the end of the program may stand before any other one. -/
theorem before (h : Keeps s m m') (hk : ∀ a, Agrees s (fun _ => True) f (k a) (k' a)) :
    Agrees s p f (m >>= k) (m' >>= k') :=
  (of_keeps h).bind fun a => (hk a).mono (fun _ h => h) fun _ h _ => h

instance keeps_bind [h : Keeps s m m'] [hk : ∀ a, Keeps s (k a) (k' a)] : Keeps s (m >>= k) (m' >>= k') :=
  h.before hk

instance needs_bind [h : Needs s m m'] [hk : ∀ a, Keeps s (k a) (k' a)] : Needs s (m >>= k) (m' >>= k') :=
  h.after hk

instance (priority := low) needs_bind_later [h : Keeps s m m'] [hk : ∀ a, Needs s (k a) (k' a)] :
    Needs s (m >>= k) (m' >>= k') :=
  h.before hk

protected theorem pure (h : e a) : Agrees s p e (pure a) (pure a) := by
  refine ⟨fun _ hrun hd => ?_, fun ha _ hrun _ => ?_, fun _ _ hrun => ?_⟩ <;>
    (obtain ⟨rfl, rfl⟩ := Prod.mk.inj (Option.some.inj hrun))
  · exact hd
  · exact ⟨_, rfl, ha⟩
  · exact ⟨rfl, h⟩

instance keeps_pure (a : α) : Keeps s (pure a) (pure a) :=
  .pure trivial

instance needs_failure : Needs s (failure : Reading α) m' :=
  ⟨fun _ hrun => (nomatch hrun), fun _ _ hrun => (nomatch hrun), fun _ _ hrun => (nomatch hrun)⟩

instance keeps_guard (φ : Prop) [Decidable φ] : Keeps s (guard φ) (guard φ) := by
  by_cases hφ : φ
  · rw [guard, if_pos hφ]
    exact .pure trivial
  · rw [guard, if_neg hφ]
    infer_instance

instance needs_guard_false {m' : Reading Unit} : Needs s (guard (false = true)) m' :=
  needs_failure

/-- A condition leaves the cursor where it is. -/
instance guard_bind {φ : Prop} [Decidable φ] {x x' : Reading β} [h : Agrees s p f x x'] :
    Agrees s p f (guard φ >>= fun _ => x) (guard φ >>= fun _ => x') := by
  by_cases hφ : φ
  · rw [guard, if_pos hφ]
    exact h
  · rw [guard, if_neg hφ]
    exact of_needs (h := needs_failure)

section Branches
variable {φ ψ : Prop} [Decidable φ] [Decidable ψ] {x x' y y' : Reading α}

theorem branch_of (hx : φ → Agrees s p e x x') (hy : ¬ φ → Agrees s p e y y') :
    Agrees s p e (if φ then x else y) (if φ then x' else y') := by
  by_cases hφ : φ
  · rw [if_pos hφ, if_pos hφ]
    exact hx hφ
  · rw [if_neg hφ, if_neg hφ]
    exact hy hφ

theorem branch_iff (h : φ ↔ ψ) (hx : Agrees s p e x x') (hy : Agrees s p e y y') :
    Agrees s p e (if φ then x else y) (if ψ then x' else y') := by
  rw [ite_congr (propext h) (fun _ => rfl) fun _ => rfl]
  exact branch_of (fun _ => hx) fun _ => hy

theorem branch (hx : Agrees s p e x x') (hy : Agrees s p e y y') :
    Agrees s p e (if φ then x else y) (if φ then x' else y') :=
  branch_of (fun _ => hx) fun _ => hy

instance ite [hx : Agrees s p e x x'] [hy : Agrees s p e y y'] :
    Agrees s p e (if φ then x else y) (if φ then x' else y') :=
  branch hx hy

instance (priority := high) ite_true [h : Agrees s p e x x'] :
    Agrees s p e (if true = true then x else y) (if true = true then x' else y') :=
  h

instance (priority := high) ite_false [h : Agrees s p e y y'] :
    Agrees s p e (if false = true then x else y) (if false = true then x' else y') :=
  h

end Branches

/-! ### Looking at the token -/

/-- A step that reads nothing and gives what is to be seen from the cursor. -/
theorem peek {v : Cursor → α} (hm : ∀ c, m.run c = some (v c, c))
    (hk : ∀ c, p c.token → c.token ≠ .stop → Agrees s (· = c.token) f (k (v c)) (k' (v c)))
    (hin : ∀ c, s.Holds c → p c.token → c.token ≠ .stop → c.Sound →
      Agrees s (· = c.token) f (k (v c)) (k' (v (s.longer c))))
    (hend : ∀ c last, c.token = .stop → p .stop → Agrees s (· = .stop) f (k (v c)) (k' (v (s.entry last)))) :
    Agrees s p f (m >>= k) (m >>= k') := by
  have hrun_of {c : Cursor} {b : β} {d : Cursor} (h : (m >>= k).run c = some (b, d)) :
      (k (v c)).run c = some (b, d) := by
    obtain ⟨a, c₁, h₁, h₂⟩ := run_bind h
    rw [hm] at h₁
    obtain ⟨rfl, rfl⟩ := Prod.mk.inj (Option.some.inj h₁)
    exact h₂
  have hsound {c : Cursor} {b : β} {d : Cursor} (ht : p c.token) (hrun : (k (v c)).run c = some (b, d)) (hd : d.Sound) :
      c.Sound := by
    by_cases hc : c.token = .stop
    · exact .stop hc
    · exact (hk c ht hc).sound rfl hrun hd
  refine ⟨fun ht hrun => hsound ht (hrun_of hrun), fun {c c' b d} ha ht hrun hd => ?_,
    fun {c _ _} hc ht hrun => (hend c 0 hc ht).atEnd hc rfl (hrun_of hrun)⟩
  have hrun := hrun_of hrun
  obtain ⟨d', hd', halike⟩ : ∃ d', (k' (v c')).run c' = some (b, d') ∧ s.Alike d d' := by
    cases ha with
    | inside hc hne => exact (hin c hc ht hne (hsound ht hrun hd)).alike (.inside hc hne) rfl hrun hd
    | atEnd hc hb hends => exact (hend c _ hc (hc ▸ ht)).alike (.atEnd hc hb hends) hc hrun hd
  exact ⟨d', run_bind_of (hm c') hd', halike⟩

theorem peek_needs {v : Cursor → α} (hm : ∀ c, m.run c = some (v c, c))
    (hk : ∀ c, Agrees s (· = c.token) (fun _ => False) (k (v c)) (k' (v c)))
    (hin : ∀ c, s.Holds c → c.Sound → Agrees s (· = c.token) (fun _ => False) (k (v c)) (k' (v (s.longer c)))) :
    Needs s (m >>= k) (m >>= k') :=
  peek hm (fun c _ _ => hk c) (fun c hc _ _ hsound => hin c hc hsound) fun c _ hc _ =>
    (hk c).of_fails fun _ h => ⟨h, hc.symm⟩

/-- Looking at the token. At the end of the program the other line may begin with a word. -/
theorem token_bind {k k' : Token → Reading β} (hk : ∀ t, p t → Agrees s (· = t) f (k t) (k' t))
    (hend : p .stop → ∀ t, t.Opens → Agrees s (· = .stop) f (k .stop) (k' t)) :
    Agrees s p f (token >>= k) (token >>= k') := by
  refine peek run_token (fun c ht _ => hk _ ht) (fun c _ ht _ _ => hk _ ht) fun c last hc ht => ?_
  rw [hc]
  rcases s.entry_token last with h | h
  · rw [h]
    exact hk _ ht
  · exact hend ht _ h

/-- Looking at the token where a word that opens a line is treated as the end of the program is. -/
theorem token_same {k k' : Token → Reading β} (hk : ∀ t, Agrees s (· = t) f (k t) (k' t))
    (hend : ∀ t, t.Opens → k' t = k' .stop) : Agrees s p f (token >>= k) (token >>= k') :=
  token_bind (fun t _ => hk t) fun _ t ht => hend t ht ▸ hk .stop

/-- Looking at the token where there has to be one. -/
theorem token_needs {k k' : Token → Reading β} (hk : ∀ t, Agrees s (· = t) (fun _ => False) (k t) (k' t)) :
    Needs s (token >>= k) (token >>= k') :=
  token_bind (fun t _ => hk t) fun _ _ _ => (hk .stop).of_fails fun _ h => ⟨h, rfl⟩

/-- What depends on the token alone, and on a word that opens a line as on the end of the program. -/
theorem test_bind {g : Token → α} (hm : ∀ c, m.run c = some (g c.token, c))
    (hg : ∀ t, t.Opens → g t = g .stop) (hk : ∀ t, p t → Agrees s (· = t) f (k (g t)) (k' (g t))) :
    Agrees s p f (m >>= k) (m >>= k') := by
  refine peek hm (fun c ht _ => hk _ ht) (fun c _ ht _ _ => hk _ ht) fun c last hc ht => ?_
  rw [hc]
  rcases s.entry_token last with h | h
  · rw [h]
    exact hk _ ht
  · rw [hg _ h]
    exact hk _ ht

/-- Where the step begins counts only if it does not begin at the end of the program. -/
theorem here_bind {k k' : Nat → Reading β} (hk : ∀ n, Agrees s (fun t => p t ∧ t ≠ .stop) f (k n) (k' n))
    (hend : p .stop → ∀ n n', Agrees s (· = .stop) f (k n) (k' n')) :
    Agrees s p f (here >>= k) (here >>= k') := by
  have hk (c : Cursor) (ht : p c.token) (hne : c.token ≠ .stop) : Agrees s (· = c.token) f (k c.start) (k' c.start) :=
    (hk c.start).mono (fun _ h => h ▸ ⟨ht, hne⟩) fun _ h => h
  exact peek run_here hk (fun c _ ht hne _ => hk c ht hne) fun _ _ _ ht => hend ht _ _

instance needs_here_bind {k k' : Nat → Reading β} [h : ∀ n, Needs s (k n) (k' n)] :
    Needs s (here >>= k) (here >>= k') :=
  here_bind (fun _ => of_needs) fun _ n _ => (h n).of_fails fun _ h => ⟨h, trivial⟩

/-- The other line is no line of the program. -/
theorem onSameLine_bind {k k' : Bool → Reading β}
    (hk : ∀ b, Agrees s (fun t => p t ∧ t ≠ .stop) f (k b) (k' b))
    (hend : p .stop → ∀ b, Agrees s (· = .stop) f (k b) (k' false)) :
    Agrees s p f (onSameLine >>= k) (onSameLine >>= k') := by
  have hk (c : Cursor) (ht : p c.token) (hne : c.token ≠ .stop) :
      Agrees s (· = c.token) f (k !c.newline) (k' !c.newline) :=
    (hk !c.newline).mono (fun _ h => h ▸ ⟨ht, hne⟩) fun _ h => h
  exact peek run_onSameLine hk (fun c _ ht hne _ => hk c ht hne) fun _ _ _ ht => hend ht _

instance needs_onSameLine_bind {k k' : Bool → Reading β} [h : ∀ b, Needs s (k b) (k' b)] :
    Needs s (onSameLine >>= k) (onSameLine >>= k') :=
  onSameLine_bind (fun _ => of_needs) fun _ b => (h b).of_fails fun _ h => ⟨h, trivial⟩

theorem sees_bind {k k' : Bool → Reading β} (hyes : Agrees s (· = .mark mark) f (k true) (k' true))
    (hno : Agrees s p f (k false) (k' false)) : Agrees s p f (sees mark >>= k) (sees mark >>= k') := by
  refine test_bind (g := (· == .mark mark)) (run_sees mark) (fun _ ht => ht.beq_mark) fun t ht => ?_
  by_cases h : t = .mark mark
  · subst h
    rw [beq_self_eq_true]
    exact hyes
  · rw [beq_false_of_ne h]
    exact hno.mono (fun _ h => h ▸ ht) fun _ h => h

theorem seesWord_bind {k k' : Bool → Reading β} (hword : word ∈ joiningWords)
    (hyes : p (.name word false) → Agrees s (· = .name word false) f (k true) (k' true))
    (hno : Agrees s p f (k false) (k' false)) : Agrees s p f (seesWord word >>= k) (seesWord word >>= k') := by
  refine test_bind (g := (· == .name word false)) (run_seesWord word) (fun _ ht => ht.beq_word hword) fun t ht => ?_
  by_cases h : t = .name word false
  · subst h
    rw [beq_self_eq_true]
    exact hyes ht
  · rw [beq_false_of_ne h]
    exact hno.mono (fun _ h => h ▸ ht) fun _ h => h

instance keeps_sees (mark : String) : Keeps s (sees mark) (sees mark) :=
  token_same (fun _ => .pure trivial) fun _ ht => by rw [ht.beq_mark]

theorem keeps_seesWord (word : String) (hword : word ∈ joiningWords) : Keeps s (seesWord word) (seesWord word) :=
  token_same (fun _ => .pure trivial) fun _ ht => by rw [ht.beq_word hword]

/-- What is asked about a cursor sees no difference between the end of the program and another line. -/
structure Respects (s : Sequel) (after : Cursor → Bool) : Prop where
  inside : ∀ c, s.Holds c → c.token ≠ .stop → c.Sound → after (s.longer c) = after c
  atEnd : ∀ c last, c.token = .stop → after (s.entry last) = after c

namespace Respects
variable {after : Cursor → Bool} {escaped : Bool}

theorem of_token {g : Token → Bool} (hg : ∀ t, t.Opens → g t = g .stop) : Respects s fun c => g c.token := by
  refine ⟨fun _ _ _ _ => rfl, fun c last hc => ?_⟩
  rcases s.entry_token last with h | h
  · simp only [h, hc]
  · simp only [hg _ h, hc]

/-- Behind a name the question is respected as well. -/
theorem next (h : Respects s after) (hc : s.Holds c) (hsound : c.Sound) (hname : c.token = .name word escaped) :
    after (s.longer c).next = after c.next := by
  have hnext := hsound.of_next (by simp [hname]) (by simp [hname])
  generalize hd : (s.longer c).next = d
  cases hd ▸ s.alike_next hc hnext.ne_invalid with
  | inside hin ht => exact h.inside _ hin ht hnext
  | atEnd ht hb _ => exact h.atEnd _ _ ht

end Respects

theorem seesWordBefore_bind {k k' : Bool → Reading β} {after : Cursor → Bool} (hword : word ∈ joiningWords)
    (hafter : Respects s after) (hyes : Agrees s (· = .name word false) f (k true) (k' true))
    (hno : Agrees s p f (k false) (k' false)) :
    Agrees s p f (seesWordBefore word after >>= k) (seesWordBefore word after >>= k') := by
  have hk (c : Cursor) (ht : p c.token) : Agrees s (· = c.token) f (k (c.token == .name word false && after c.next))
      (k' (c.token == .name word false && after c.next)) := by
    cases h : c.token == .name word false && after c.next with
    | false => exact hno.mono (fun _ h => h ▸ ht) fun _ h => h
    | true =>
      rw [Bool.and_eq_true, beq_iff_eq] at h
      rw [h.1]
      exact hyes
  refine peek (run_seesWordBefore word after) (fun c ht _ => hk c ht) (fun c hc ht _ hsound => ?_) fun c last hc ht => ?_
  · rw [show (s.longer c).token = c.token from rfl]
    by_cases h : c.token = .name word false
    · rw [hafter.next hc hsound h]
      exact hk c ht
    · rw [beq_false_of_ne h]
      exact hno.mono (fun _ h => h ▸ ht) fun _ h => h
  · have hentry : (s.entry last).token ≠ .name word false := by
      rcases s.entry_token last with h | h
      · simp [h]
      · exact h.ne_word hword
    rw [beq_false_of_ne hentry, hc]
    exact hno.mono (fun _ h => h ▸ ht) fun _ h => h

theorem keeps_seesWordBefore (word : String) (hword : word ∈ joiningWords) {after : Cursor → Bool}
    (hafter : Respects s after) :
    Keeps s (Reading.seesWordBefore word after) (Reading.seesWordBefore word after) := by
  have hbind : Keeps s (Reading.seesWordBefore word after >>= Pure.pure) (Reading.seesWordBefore word after >>= Pure.pure) :=
    seesWordBefore_bind hword hafter (.pure trivial) (.pure trivial)
  rwa [bind_pure] at hbind

/-! ### Looking for a word that has to come, or another token -/

/-- Where something has to follow, any word may be looked for. -/
theorem seesWord_needs {k k' : Bool → Reading β}
    (hyes : Agrees s (· = .name word false) (fun _ => False) (k true) (k' true)) (hno : Needs s (k false) (k' false)) :
    Needs s (seesWord word >>= k) (seesWord word >>= k') := by
  have hk (c : Cursor) : Agrees s (· = c.token) (fun _ => False) (k (c.token == .name word false))
      (k' (c.token == .name word false)) := by
    by_cases h : c.token = .name word false
    · rw [h, beq_self_eq_true]
      exact hyes
    · rw [beq_false_of_ne h]
      exact of_needs
  exact peek_needs (run_seesWord word) hk fun c _ _ => hk c

instance needs_seesWord_bind {k k' : Bool → Reading β} [h : ∀ b, Needs s (k b) (k' b)] :
    Needs s (seesWord word >>= k) (seesWord word >>= k') :=
  seesWord_needs of_needs inferInstance

theorem seesWordBefore_needs {k k' : Bool → Reading β} {after : Cursor → Bool} (hafter : Respects s after)
    (hyes : Agrees s (· = .name word false) (fun _ => False) (k true) (k' true)) (hno : Needs s (k false) (k' false)) :
    Needs s (seesWordBefore word after >>= k) (seesWordBefore word after >>= k') := by
  have hk (c : Cursor) : Agrees s (· = c.token) (fun _ => False) (k (c.token == .name word false && after c.next))
      (k' (c.token == .name word false && after c.next)) := by
    cases h : c.token == .name word false && after c.next with
    | false => exact of_needs
    | true =>
      rw [Bool.and_eq_true, beq_iff_eq] at h
      rw [h.1]
      exact hyes
  refine peek_needs (run_seesWordBefore word after) hk fun c hc hsound => ?_
  rw [show (s.longer c).token = c.token from rfl]
  by_cases h : c.token = .name word false
  · rw [hafter.next hc hsound h]
    exact hk c
  · rw [beq_false_of_ne h]
    exact of_needs (h := hno)

/-! ### Going on -/

theorem advance (hstop : ¬ p .stop) (hinvalid : ¬ p .invalid) {e : Unit → Prop} : Agrees s p e advance advance := by
  refine ⟨fun ht hrun hd => ?_, fun ha ht hrun hd => ?_, fun _ ht => absurd ht hstop⟩ <;>
    obtain ⟨-, rfl⟩ := Prod.mk.inj (Option.some.inj hrun)
  · exact .next (fun h => hinvalid (h ▸ ht)) hd
  · cases ha with
    | inside hc hne => exact ⟨_, rfl, Sequel.alike_next hc hd.ne_invalid⟩
    | atEnd hc hb _ => exact absurd (hc ▸ ht) hstop

instance keeps_node (start : Nat) (label : Label) (children : List Tree) :
    Keeps s (node start label children) (node start label children) := by
  refine ⟨fun _ hrun hd => ?_, fun ha _ hrun _ => ?_, fun _ _ hrun => ?_⟩ <;>
    obtain ⟨rfl, rfl⟩ := Prod.mk.inj (Option.some.inj hrun)
  · exact hd
  · exact ⟨_, by rw [run_node, ha.last_eq], ha⟩
  · exact ⟨rfl, trivial⟩

theorem leaf (label : Label) (hstop : ¬ p .stop) (hinvalid : ¬ p .invalid) {e : Tree → Prop} :
    Agrees s p e (leaf label) (leaf label) :=
  here_bind (fun _ => (advance (fun h => hstop h.1) fun h => hinvalid h.1).after fun _ => inferInstance)
    fun h => absurd h hstop

instance keeps_take (mark : String) : Keeps s (take mark) (take mark) :=
  sees_bind ((advance nofun nofun).after fun _ => inferInstance) (.pure trivial)

/-- At the end of the program no mark is taken. -/
instance needs_take_bind {k k' : Bool → Reading β} [hyes : Keeps s (k true) (k' true)]
    [hno : Needs s (k false) (k' false)] : Needs s (Reading.take mark >>= k) (Reading.take mark >>= k') := by
  have htake : Agrees s (fun _ => True) (· = false) (Reading.take mark) (Reading.take mark) :=
    sees_bind ((advance nofun nofun).after fun _ => inferInstance) (.pure rfl)
  refine htake.bind fun b => ?_
  cases b with
  | true => exact hyes.mono (fun _ h => h) fun _ _ => nofun
  | false => exact hno.mono (fun _ h => h) fun _ h _ => h

instance needs_takeWord_bind {k k' : Bool → Reading β} [hyes : Keeps s (k true) (k' true)]
    [hno : Needs s (k false) (k' false)] : Needs s (Reading.takeWord word >>= k) (Reading.takeWord word >>= k') := by
  rw [Reading.takeWord, bind_assoc, bind_assoc]
  refine seesWord_needs ?_ hno
  rw [if_pos rfl, bind_assoc, bind_assoc]
  exact (advance nofun nofun).after fun _ => hyes

theorem keeps_takeWord (word : String) (hword : word ∈ joiningWords) :
    Keeps s (Reading.takeWord word) (Reading.takeWord word) :=
  seesWord_bind hword (fun _ => (advance nofun nofun).after fun _ => inferInstance) (.pure trivial)

/-- At the end of the program no word is taken. -/
theorem takeWord_atEnd {k k' : Bool → Reading β} (hword : word ∈ joiningWords)
    (hno : Agrees s (· = .stop) f (k false) (k' false)) :
    Agrees s (· = .stop) f (Reading.takeWord word >>= k) (Reading.takeWord word >>= k') := by
  rw [Reading.takeWord, bind_assoc, bind_assoc]
  exact seesWord_bind hword (fun h => by cases h) hno

theorem takeWordBefore_bind {k k' : Bool → Reading β} {after : Cursor → Bool} (hword : word ∈ joiningWords)
    (hafter : Respects s after) (hyes : Keeps s (k true) (k' true))
    (hno : Agrees s (fun _ => True) f (k false) (k' false)) :
    Agrees s p f (Reading.takeWordBefore word after >>= k) (Reading.takeWordBefore word after >>= k') := by
  have htake : Agrees s p (· = false) (Reading.takeWordBefore word after) (Reading.takeWordBefore word after) :=
    seesWordBefore_bind hword hafter ((advance nofun nofun).after fun _ => inferInstance) (.pure rfl)
  refine htake.bind fun b => ?_
  cases b with
  | true => exact hyes.mono (fun _ h => h) fun _ _ => nofun
  | false => exact hno.mono (fun _ h => h) fun _ h _ => h

theorem keeps_takeWordBefore (word : String) (hword : word ∈ joiningWords) {after : Cursor → Bool}
    (hafter : Respects s after) :
    Keeps s (Reading.takeWordBefore word after) (Reading.takeWordBefore word after) :=
  seesWordBefore_bind hword hafter ((advance nofun nofun).after fun _ => inferInstance) (.pure trivial)

instance needs_expect (mark : String) : Needs s (expect mark) (expect mark) :=
  needs_take_bind

instance needs_expectWord (word : String) : Needs s (expectWord word) (expectWord word) := by
  have hrun {c : Cursor} {a : Unit} {d : Cursor} (h : (expectWord word).run c = some (a, d)) :
      c.token = .name word false ∧ c.next = d := by
    by_cases hc : c.token = .name word false
    · rw [run_expectWord hc] at h
      exact ⟨hc, (Prod.mk.inj (Option.some.inj h)).2⟩
    · simp [expectWord, run_takeWord, hc] at h
  refine ⟨fun _ h hd => ?_, fun ha _ h hd => ?_, fun hc _ h => ?_⟩ <;> obtain ⟨htoken, rfl⟩ := hrun h
  · exact .next (by simp [htoken]) hd
  · cases ha with
    | inside hc hne => exact ⟨_, run_expectWord htoken, Sequel.alike_next hc hd.ne_invalid⟩
    | atEnd hc hb _ => simp [hc] at htoken
  · simp [hc] at htoken

instance keeps_semicolon : Keeps s semicolon semicolon := by
  refine (keeps_take ";").before fun b => ?_
  cases b with
  | true => exact .pure trivial
  | false =>
    refine peek (v := id) (fun _ => rfl) (fun _ _ _ => of_keeps (keeps_guard _))
      (fun _ _ _ _ _ => of_keeps (keeps_guard _)) fun c last hc _ => ?_
    -- there a statement ends by itself, and so it does before another line
    simp only [id, hc, beq_self_eq_true, Bool.or_true, Sequel.entry, Bool.true_or]
    exact of_keeps (keeps_guard _)

instance needs_identifier (ctx : Context) : Needs s (identifier ctx) (identifier ctx) := by
  refine token_needs fun t => ?_
  cases t with
  | name text escaped =>
    have := leaf (s := s) (p := (· = .name text escaped)) (.identifier text) nofun nofun (e := fun _ => False)
    exact guard_bind
  | _ => exact of_needs

instance needs_stringLiteral : Needs s stringLiteral stringLiteral := by
  refine token_needs fun t => ?_
  cases t with
  | string text => exact leaf (.string text) nofun nofun
  | _ => exact of_needs

instance keeps_asRegex : Keeps s (modify Cursor.asRegex) (modify Cursor.asRegex) := by
  refine ⟨fun _ hrun hd => ?_, fun ha _ hrun hd => ?_, fun hc _ hrun => ?_⟩ <;>
    obtain ⟨-, rfl⟩ := Prod.mk.inj (Option.some.inj hrun)
  · exact .asRegex hd
  · exact ⟨_, rfl, Sequel.alike_asRegex ha hd.ne_invalid⟩
  · exact ⟨Cursor.asRegex_eq_self (by simp [hc]) (by simp [hc]), trivial⟩

instance keeps_asTemplate : Keeps s (modify Cursor.asTemplate) (modify Cursor.asTemplate) := by
  refine ⟨fun _ hrun hd => ?_, fun ha _ hrun hd => ?_, fun hc _ hrun => ?_⟩ <;>
    obtain ⟨-, rfl⟩ := Prod.mk.inj (Option.some.inj hrun)
  · exact .asTemplate hd
  · exact ⟨_, rfl, Sequel.alike_asTemplate ha hd.ne_invalid⟩
  · exact ⟨Cursor.asTemplate_eq_self (by simp [hc]), trivial⟩

/-! ### Repeating -/

section Repetition
variable {step step' : α → Reading (Option α)}

theorem repeatUpTo (hs : ∀ a, Keeps s (step a) (step' a)) {n n' : Nat} (hn : n ≤ n') (a : α) :
    Keeps s (Reading.repeatUpTo step n a) (Reading.repeatUpTo step' n' a) := by
  induction n generalizing n' a with
  | zero => exact keeps_of_needs (h := needs_failure)
  | succ n ih =>
    obtain ⟨n', rfl⟩ : ∃ k, n' = k + 1 := ⟨n' - 1, by omega⟩
    refine (hs a).before fun b => ?_
    cases b with
    | none => exact .pure trivial
    | some b => exact ih (Nat.le_of_succ_le_succ hn) b

/-- Both programs together leave more room for repetitions. -/
theorem iterate_of (h : ∀ {n n'}, n ≤ n' → Agrees s p e (Reading.repeatUpTo step n a) (Reading.repeatUpTo step' n' a)) :
    Agrees s p e (iterate step a) (iterate step' a) := by
  refine ⟨(h (Nat.le_refl _)).sound, fun ha => ?_, (h (Nat.le_refl _)).atEnd⟩
  exact (h (by have := ha.bound_le; omega)).alike ha

instance keeps_iterate [h : ∀ a, Keeps s (step a) (step' a)] : Keeps s (iterate step a) (iterate step' a) :=
  iterate_of fun hn => repeatUpTo h hn a

/-- Rounds of which the first one needs a token. -/
theorem iterate_needs (done : α → Prop) (hs : ∀ a, Agrees s (fun _ => True) (fun _ => done a) (step a) (step' a))
    (ha : ¬ done a) : Needs s (iterate step a) (iterate step' a) := by
  refine iterate_of fun {n n'} hn => ?_
  cases n with
  | zero => exact needs_failure
  | succ n =>
    obtain ⟨n', rfl⟩ : ∃ k, n' = k + 1 := ⟨n' - 1, by omega⟩
    refine (hs a).bind fun b => ?_
    cases b with
    | none => exact .pure ha
    | some b =>
      have hrest := repeatUpTo (fun a => (hs a).mono (fun _ h => h) fun _ _ => trivial) (Nat.le_of_succ_le_succ hn) b
      exact hrest.mono (fun _ h => h) fun _ _ h => ha h

instance needs_iterate [h : ∀ a, Needs s (step a) (step' a)] : Needs s (iterate step a) (iterate step' a) :=
  iterate_needs (fun _ => False) h id

end Repetition

section Lists
variable {close : String} {item item' : Reading Tree} [h : Needs s item item']

instance needs_itemsTo : Needs s (itemsTo close item) (itemsTo close item') := by
  unfold itemsTo
  infer_instance

instance needs_separated : Needs s (separated close item) (separated close item') := by
  have hrounds : Needs s (iterate (separatedStep close item) ([], false, false))
      (iterate (separatedStep close item') ([], false, false)) := by
    refine iterate_needs (·.2.2 = true) ?_ nofun
    rintro ⟨items, trailing, done⟩
    cases done with
    | true => exact .pure rfl
    | false => exact of_needs (h := needs_take_bind)
  rw [separated_eq, separated_eq]
  infer_instance

end Lists

end Agrees

end Relabel.Script
