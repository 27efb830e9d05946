import Relabel.Proofs.Script.Shift.Cursors
import Relabel.Proofs.Script.Shift.Trees

/-!
# Steps on text that stands further back

`Shifts k m m'`: where the step `m` reads something, the step `m'` reads the same from text that stands further back.
As with steps in front of another line there is an instance for each way to put steps together, and one for each rule of
the grammar.
-/

namespace Relabel.Script
open Reading

class Shifts {α : Type} [Shift α] (k : Move) (m m' : Reading α) : Prop where
  run : ∀ {c c' a d}, c.Shifted k c' → m.run c = some (a, d) → ∃ d', m'.run c' = some (shifted k a, d') ∧ d.Shifted k d'

namespace Shifts
variable {α β : Type} [Shift α] [Shift β] {k : Move} {a a' : α} {b b' : β} {m m' : Reading α} {f f' : α → Reading β}
  {x x' y y' : Reading α} {start start' : Nat} {label : Label} {ts ts' : List Tree}

/-! ### Sequences -/

instance (priority := low) bind [h : Shifts k m m'] [g : ∀ a, Shifts k (f a) (f' (shifted k a))] :
    Shifts k (m >>= f) (m' >>= f') := by
  refine ⟨fun hc hrun => ?_⟩
  obtain ⟨a, c₁, h₁, h₂⟩ := Agrees.run_bind hrun
  obtain ⟨c₁', h₁', hc₁⟩ := h.run hc h₁
  obtain ⟨d', h₂', hd⟩ := (g a).run hc₁ h₂
  exact ⟨d', Agrees.run_bind_of h₁' h₂', hd⟩

instance bind_still [Still α] [h : Shifts k m m'] [g : ∀ a, Shifts k (f a) (f' a)] : Shifts k (m >>= f) (m' >>= f') :=
  bind (g := fun a => (Still.shifted_eq k a).symm ▸ g a)

instance bind_pair {m m' : Reading (α × β)} {γ : Type} [Shift γ] {f f' : α × β → Reading γ} [h : Shifts k m m']
    [g : ∀ a b, Shifts k (f (a, b)) (f' (shifted k a, shifted k b))] : Shifts k (m >>= f) (m' >>= f') :=
  bind (g := fun p => g p.1 p.2)

instance pure [h : IsShift k a a'] : Shifts k (pure a) (pure a') := by
  refine ⟨fun hc hrun => ?_⟩
  obtain ⟨rfl, rfl⟩ := Prod.mk.inj (Option.some.inj hrun)
  rw [h.eq]
  exact ⟨_, rfl, hc⟩

instance failure : Shifts k (failure : Reading α) m' :=
  ⟨fun _ hrun => nomatch hrun⟩

instance guarded {φ φ' : Prop} [Decidable φ] [Decidable φ'] [h : IsShift k φ φ'] : Shifts k (guard φ) (guard φ') := by
  obtain rfl := h.eq_of_still
  by_cases hφ : φ'
  · rw [guard, guard, if_pos hφ, if_pos hφ]
    infer_instance
  · rw [guard, if_neg hφ]
    infer_instance

instance ite {φ φ' : Prop} [Decidable φ] [Decidable φ'] [h : IsShift k φ φ'] [p : Shifts k x x'] [q : Shifts k y y'] :
    Shifts k (if φ then x else y) (if φ' then x' else y') := by
  obtain rfl := h.eq_of_still
  by_cases hφ : φ'
  · rw [if_pos hφ, if_pos hφ]
    exact p
  · rw [if_neg hφ, if_neg hφ]
    exact q

/-! ### Single steps -/

/-- A step that reads nothing and gives what is to be seen from the cursor. -/
theorem peek {v : Cursor → α} (hm : ∀ c, m.run c = some (v c, c))
    (hv : ∀ {c c' : Cursor}, c.Shifted k c' → v c' = shifted k (v c)) : Shifts k m m := by
  refine ⟨fun hc hrun => ?_⟩
  rw [hm] at hrun
  obtain ⟨rfl, rfl⟩ := Prod.mk.inj (Option.some.inj hrun)
  exact ⟨_, by rw [hm, hv hc], hc⟩

/-- A step that only moves the cursor. -/
theorem move {go : Cursor → Cursor} (hgo : ∀ {c c' : Cursor}, c.Shifted k c' → (go c).Shifted k (go c')) :
    Shifts k (modify go) (modify go) := by
  refine ⟨fun hc hrun => ?_⟩
  obtain ⟨-, rfl⟩ := Prod.mk.inj (Option.some.inj hrun)
  exact ⟨_, rfl, hgo hc⟩

/-- A step that goes on from what it sees. -/
theorem get_bind {g g' : Cursor → Reading β} (h : ∀ {c c' : Cursor}, c.Shifted k c' → Shifts k (g c) (g' c')) :
    Shifts k (get >>= g) (get >>= g') :=
  ⟨fun hc hrun => (h hc).run hc hrun⟩

instance token : Shifts k token token :=
  peek run_token fun h => h.token

instance here : Shifts k here here :=
  peek run_here fun h => h.start

instance onSameLine : Shifts k onSameLine onSameLine :=
  peek run_onSameLine fun h => congrArg not h.newline

instance advance : Shifts k advance advance :=
  move Cursor.Shifted.next

instance asRegex : Shifts k (modify Cursor.asRegex) (modify Cursor.asRegex) :=
  move Cursor.Shifted.asRegex

instance asTemplate : Shifts k (modify Cursor.asTemplate) (modify Cursor.asTemplate) :=
  move Cursor.Shifted.asTemplate

instance sees (mark : String) : Shifts k (sees mark) (sees mark) := by
  unfold Reading.sees
  infer_instance

instance seesWord (word : String) : Shifts k (seesWord word) (seesWord word) := by
  unfold Reading.seesWord
  infer_instance

instance take (mark : String) : Shifts k (take mark) (take mark) := by
  unfold Reading.take
  infer_instance

instance takeWord (word : String) : Shifts k (takeWord word) (takeWord word) := by
  unfold Reading.takeWord
  infer_instance

instance expect (mark : String) : Shifts k (expect mark) (expect mark) := by
  unfold Reading.expect
  infer_instance

instance expectWord (word : String) : Shifts k (expectWord word) (expectWord word) := by
  unfold Reading.expectWord
  infer_instance

instance node [hs : IsShift k start start'] [h : IsShift k ts ts'] :
    Shifts k (node start label ts) (node start' label ts') := by
  refine ⟨fun {c c' _ _} hc hrun => ?_⟩
  obtain ⟨rfl, rfl⟩ := Prod.mk.inj (Option.some.inj hrun)
  refine ⟨c', ?_, hc⟩
  rw [run_node, hs.eq, h.eq, hc.last]
  rfl

instance leaf : Shifts k (leaf label) (leaf label) := by
  unfold Reading.leaf
  infer_instance

instance semicolon : Shifts k semicolon semicolon := by
  unfold Reading.semicolon
  refine bind_still (g := fun b => ite (q := get_bind fun hc => ?_))
  rw [hc.token, hc.newline]
  infer_instance

instance identifier (ctx : Context) : Shifts k (identifier ctx) (identifier ctx) := by
  refine bind_still (g := fun t => ?_)
  cases t <;> infer_instance

instance stringLiteral : Shifts k stringLiteral stringLiteral := by
  refine bind_still (g := fun t => ?_)
  cases t <;> infer_instance

/-- What is asked about a cursor has nothing to do with places. -/
class Steady (after : Cursor → Bool) : Prop where
  eq : ∀ {k : Move} {c c' : Cursor}, c.Shifted k c' → after c' = after c

instance steady_token (t : Token) : Steady fun c => c.token == t :=
  ⟨fun h => by rw [h.token]⟩

instance seesWordBefore (word : String) {after : Cursor → Bool} [h : Steady after] :
    Shifts k (seesWordBefore word after) (seesWordBefore word after) :=
  peek (run_seesWordBefore word after) fun hc => by rw [hc.token, h.eq hc.next]; rfl

instance takeWordBefore (word : String) {after : Cursor → Bool} [h : Steady after] :
    Shifts k (takeWordBefore word after) (takeWordBefore word after) := by
  unfold Reading.takeWordBefore
  infer_instance

/-! ### Repeating -/

section Repetition
variable {step step' : α → Reading (Option α)} [r : ∀ a, Shifts k (step a) (step' (shifted k a))]

theorem repeatUpTo {n n' : Nat} (hn : n ≤ n') (a : α) :
    Shifts k (Reading.repeatUpTo step n a) (Reading.repeatUpTo step' n' (shifted k a)) := by
  induction n generalizing n' a with
  | zero => exact failure
  | succ n ih =>
    obtain ⟨n', rfl⟩ : ∃ k, n' = k + 1 := ⟨n' - 1, by omega⟩
    refine bind (g := fun b => ?_)
    cases b with
    | none => exact pure
    | some b => exact ih (Nat.le_of_succ_le_succ hn) b

instance iterate [h : IsShift k a a'] : Shifts k (iterate step a) (iterate step' a') := by
  rw [h.eq]
  refine ⟨fun hc hrun => ?_⟩
  exact (repeatUpTo (r := r) (Nat.add_le_add_right hc.bound 2) a).run hc hrun

end Repetition

section Lists
variable {close : String} {item item' : Reading Tree} [h : Shifts k item item']

instance itemsTo : Shifts k (itemsTo close item) (itemsTo close item') := by
  unfold Reading.itemsTo
  infer_instance

instance separated : Shifts k (separated close item) (separated close item') := by
  unfold Reading.separated
  infer_instance

end Lists

end Shifts

end Relabel.Script
