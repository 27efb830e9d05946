import Mathlib.Tactic
import Relabel.Script.Module

/-!
# Trees that stand further back

What is read from text that stands further back has all its places further back (`shifted`). Nothing that a rule asks
of a tree depends on places, so it is the same there; `IsShift` says so, with an instance for each way to put together
what a rule gives or asks.
-/

namespace Relabel.Script

/-- Where the places of a text are if it stands behind another one: `back` bytes further back, and where nothing has
been read yet, at the end `origin` of what is read before it. -/
structure Move where
  origin : Nat
  back : Nat

namespace Move

def place (k : Move) (n : Nat) : Nat :=
  if n = 0 then k.origin else n + k.back

variable {k : Move} {n : Nat}

theorem place_of_pos (h : 0 < n) : k.place n = n + k.back :=
  if_neg (Nat.ne_of_gt h)

theorem place_add (h : 0 < n) (m : Nat) : k.place (n + m) = k.place n + m := by
  rw [place_of_pos h, place_of_pos (Nat.add_pos_left h m), Nat.add_right_comm]

end Move

/-- What holds places of a text, and the same where the text stands further back. -/
class Shift (α : Type) where
  shifted : Move → α → α

export Shift (shifted)

instance : Shift Nat := ⟨Move.place⟩
instance : Shift Unit := ⟨fun _ a => a⟩
instance : Shift Bool := ⟨fun _ a => a⟩
instance : Shift Prop := ⟨fun _ a => a⟩
instance : Shift Token := ⟨fun _ a => a⟩
instance : Shift Label := ⟨fun _ a => a⟩
instance : Shift Modifiers := ⟨fun _ a => a⟩
instance : Shift String := ⟨fun _ a => a⟩

/-- What holds no place. -/
class Still (α : Type) [Shift α] : Prop where
  shifted_eq : ∀ (k : Move) (a : α), shifted k a = a

instance : Still Unit := ⟨fun _ _ => rfl⟩
instance : Still Bool := ⟨fun _ _ => rfl⟩
instance : Still Prop := ⟨fun _ _ => rfl⟩
instance : Still Token := ⟨fun _ _ => rfl⟩
instance : Still Label := ⟨fun _ _ => rfl⟩
instance : Still Modifiers := ⟨fun _ _ => rfl⟩
instance : Still String := ⟨fun _ _ => rfl⟩

mutual

def Tree.shifted (k : Move) : Tree → Tree
  | .node label span children => .node label ⟨k.place span.start, k.place span.stop⟩ (shiftedAll k children)

def Tree.shiftedAll (k : Move) : List Tree → List Tree
  | [] => []
  | t :: ts => t.shifted k :: shiftedAll k ts

end

instance : Shift Tree := ⟨Tree.shifted⟩
instance : Shift (List Tree) := ⟨Tree.shiftedAll⟩
instance : Shift (List (List Tree)) := ⟨fun k => List.map (Tree.shiftedAll k)⟩
instance {α β : Type} [Shift α] [Shift β] : Shift (α × β) := ⟨fun k a => (shifted k a.1, shifted k a.2)⟩
instance {α : Type} [Shift α] : Shift (Option α) := ⟨fun k => Option.map (shifted k)⟩
instance : Shift Span := ⟨fun k s => ⟨k.place s.start, k.place s.stop⟩⟩
instance : Shift Accessed := ⟨fun k a => ⟨a.tree.shifted k, a.isChained⟩⟩

/-- The second thing is the first one in text that stands further back. -/
class IsShift {α : Type} [Shift α] (k : Move) (a a' : α) : Prop where
  eq : a' = shifted k a

instance {α : Type} [Shift α] [Still α] : Still (Option α) := by
  refine ⟨fun k a => ?_⟩
  cases a with
  | none => rfl
  | some a => exact congrArg some (Still.shifted_eq k a)

namespace IsShift
variable {α β : Type} [Shift α] [Shift β] {k : Move} {a a' : α} {b b' : β} {t t' : Tree} {ts ts' us us' : List Tree}

instance shifted (a : α) : IsShift k a (shifted k a) := ⟨rfl⟩

instance still [Still α] (a : α) : IsShift k a a := ⟨(Still.shifted_eq k a).symm⟩

theorem eq_of_still [Still α] (h : IsShift k a a') : a' = a :=
  h.eq.trans (Still.shifted_eq k a)

instance pair [h : IsShift k a a'] [h' : IsShift k b b'] : IsShift k (a, b) (a', b') := by
  obtain rfl := h.eq
  obtain rfl := h'.eq
  exact ⟨rfl⟩

instance fst {p p' : α × β} [h : IsShift k p p'] : IsShift k p.1 p'.1 := by
  obtain rfl := h.eq
  exact ⟨rfl⟩

instance some [h : IsShift k a a'] : IsShift k (some a) (some a') :=
  ⟨congrArg Option.some h.eq⟩

instance none : IsShift k (none : Option α) none := ⟨rfl⟩

/-! ### Truth values -/

section
variable {φ φ' ψ ψ' : Prop} {x x' y y' : Bool}

instance and [h : IsShift k φ φ'] [h' : IsShift k ψ ψ'] : IsShift k (φ ∧ ψ) (φ' ∧ ψ') :=
  ⟨by rw [h.eq_of_still, h'.eq_of_still]; rfl⟩

instance isTrue [h : IsShift k x x'] : IsShift k (x = true) (x' = true) :=
  ⟨by rw [h.eq_of_still]; rfl⟩

instance bnot [h : IsShift k x x'] : IsShift k (!x) (!x') :=
  ⟨by rw [h.eq_of_still]; rfl⟩

instance band [h : IsShift k x x'] [h' : IsShift k y y'] : IsShift k (x && y) (x' && y') :=
  ⟨by rw [h.eq_of_still, h'.eq_of_still]; rfl⟩

instance bor [h : IsShift k x x'] [h' : IsShift k y y'] : IsShift k (x || y) (x' || y') :=
  ⟨by rw [h.eq_of_still, h'.eq_of_still]; rfl⟩

instance beq [BEq α] [Still α] [h : IsShift k a a'] (b : α) : IsShift k (a == b) (a' == b) :=
  ⟨by rw [h.eq_of_still]; rfl⟩

instance bne [BEq α] [Still α] [h : IsShift k a a'] (b : α) : IsShift k (a != b) (a' != b) :=
  ⟨by rw [h.eq_of_still]; rfl⟩

end

/-! ### Trees -/

instance nil : IsShift k ([] : List Tree) [] := ⟨rfl⟩

instance cons [h : IsShift k t t'] [hs : IsShift k ts ts'] : IsShift k (t :: ts) (t' :: ts') := by
  rw [h.eq, hs.eq]
  exact ⟨rfl⟩

instance isEmpty [h : IsShift k ts ts'] : IsShift k ts.isEmpty ts'.isEmpty := by
  rw [h.eq]
  cases ts <;> exact ⟨rfl⟩

theorem shiftedAll_append (k : Move) (ts us : List Tree) :
    Tree.shiftedAll k (ts ++ us) = Tree.shiftedAll k ts ++ Tree.shiftedAll k us := by
  induction ts with
  | nil => rfl
  | cons t ts ih => rw [List.cons_append, Tree.shiftedAll, Tree.shiftedAll, ih, List.cons_append]

instance append [h : IsShift k ts ts'] [h' : IsShift k us us'] : IsShift k (ts ++ us) (ts' ++ us') := by
  rw [h.eq, h'.eq]
  exact ⟨(shiftedAll_append k ts us).symm⟩

theorem shiftedAll_reverse (k : Move) (ts : List Tree) :
    Tree.shiftedAll k ts.reverse = (Tree.shiftedAll k ts).reverse := by
  induction ts with
  | nil => rfl
  | cons t ts ih =>
    rw [List.reverse_cons, shiftedAll_append, ih, Tree.shiftedAll, Tree.shiftedAll, Tree.shiftedAll, List.reverse_cons]

instance reverse [h : IsShift k ts ts'] : IsShift k ts.reverse ts'.reverse := by
  rw [h.eq]
  exact ⟨(shiftedAll_reverse k ts).symm⟩

instance span [h : IsShift k t t'] : IsShift k t.span t'.span := by
  obtain rfl := h.eq
  cases t
  exact ⟨rfl⟩

instance between {start start' stop stop' : Nat} [h : IsShift k start start'] [g : IsShift k stop stop'] :
    IsShift k (Span.mk start stop) ⟨start', stop'⟩ := by
  rw [h.eq, g.eq]
  exact ⟨rfl⟩

instance stop {s s' : Span} [h : IsShift k s s'] : IsShift k s.stop s'.stop := by
  rw [h.eq]
  exact ⟨rfl⟩

instance node {label label' : Label} {s s' : Span} [hl : IsShift k label label'] [g : IsShift k s s']
    [h : IsShift k ts ts'] : IsShift k (Tree.node label s ts) (.node label' s' ts') := by
  rw [hl.eq_of_still, g.eq, h.eq]
  exact ⟨rfl⟩

end IsShift

/-! ### What is asked of trees -/

namespace Tree
variable (k : Move)

@[simp] theorem label_shifted (t : Tree) : (t.shifted k).label = t.label := by
  cases t
  rfl

@[simp] theorem children_shifted (t : Tree) : (t.shifted k).children = shiftedAll k t.children := by
  cases t
  rfl

theorem shiftedAll_eq_map (ts : List Tree) : shiftedAll k ts = ts.map (shifted k) := by
  induction ts with
  | nil => rfl
  | cons t ts ih => rw [shiftedAll, ih, List.map_cons]

@[simp] theorem takesRest_shifted (t : Tree) : takesRest (t.shifted k) = takesRest t := by
  rw [takesRest, label_shifted, takesRest]

@[simp] theorem restIsLast_shiftedAll (trailing : Bool) (ts : List Tree) :
    restIsLast trailing (shiftedAll k ts) = restIsLast trailing ts := by
  fun_induction restIsLast trailing ts with
  | case1 => rfl
  | case2 t => rw [shiftedAll, shiftedAll, restIsLast, takesRest_shifted]
  | case3 t ts hne ih =>
    cases ts with
    | nil => exact absurd rfl hne
    | cons u us => rw [shiftedAll, shiftedAll, restIsLast, takesRest_shifted, ← shiftedAll, ih]; exact nofun

@[simp] theorem isSimpleTarget_shifted (t : Tree) : (t.shifted k).isSimpleTarget = t.isSimpleTarget := by
  obtain ⟨label, span, children⟩ := t
  cases label with
  | paren =>
    rcases children with _ | ⟨t, _ | ⟨u, us⟩⟩
    · rfl
    · exact isSimpleTarget_shifted t
    · rfl
  | _ => rfl

mutual

theorem asPattern_shifted (place : PatternPlace) : ∀ t : Tree,
    (t.shifted k).asPattern place = (t.asPattern place).map (shifted k)
  | .node label span children => by
    have hmap (place : PatternPlace) (label : Label) :
        (asPatterns place (shiftedAll k children)).map (.node label ⟨k.place span.start, k.place span.stop⟩) =
          ((asPatterns place children).map (.node label span)).map (shifted k) := by
      rw [asPatterns_shifted place children]
      cases asPatterns place children <;> rfl
    have hif {φ ψ : Prop} [Decidable φ] [Decidable ψ] {x y : Option Tree} (h : φ ↔ ψ) (hx : x = y.map (shifted k)) :
        (if φ then x else none) = (if ψ then y else none).map (shifted k) := by
      rw [ite_congr (propext h) (fun _ => hx) fun _ => rfl]
      split <;> rfl
    have hsimple := isSimpleTarget_shifted k (.node label span children)
    rw [shifted] at hsimple ⊢
    rw [asPattern.eq_def, asPattern.eq_def]
    dsimp only
    have hplain : (if (node label ⟨k.place span.start, k.place span.stop⟩ (shiftedAll k children)).isSimpleTarget = true then
        some (node label ⟨k.place span.start, k.place span.stop⟩ (shiftedAll k children)) else none) =
        (if (node label span children).isSimpleTarget = true then some (node label span children) else none).map
          (shifted k) :=
      hif (by rw [hsimple]) rfl
    have hspread : (shiftedAll k children).all isSimpleTarget = children.all isSimpleTarget := by
      rw [shiftedAll_eq_map, List.all_map]
      exact congrArg children.all (funext (isSimpleTarget_shifted k))
    cases place <;> cases label <;>
      first
      | rfl
      | exact hmap _ _
      | exact hplain
      | exact hif .rfl rfl
      | exact hif (by rw [hspread]) rfl
      | exact hif (by rw [restIsLast_shiftedAll]) (hmap _ _)

theorem asPatterns_shifted (place : PatternPlace) : ∀ ts : List Tree,
    asPatterns place (shiftedAll k ts) = (asPatterns place ts).map (shiftedAll k)
  | [] => rfl
  | t :: ts => by
    rw [shiftedAll, asPatterns, asPatterns, asPattern_shifted place t, asPatterns_shifted place ts]
    cases t.asPattern place with
    | none => rfl
    | some p => cases asPatterns place ts <;> rfl

end

mutual

theorem isBinding_shifted : ∀ t : Tree, (t.shifted k).isBinding = t.isBinding
  | .node label span children => by
    rw [shifted, isBinding.eq_def, isBinding.eq_def]
    cases label <;>
      first
      | rfl
      | exact areBindings_shifted children
      | exact firstIsBinding_shifted children
      | exact lastIsBinding_shifted children

theorem areBindings_shifted : ∀ ts : List Tree, areBindings (shiftedAll k ts) = areBindings ts
  | [] => rfl
  | t :: ts => by rw [shiftedAll, areBindings, areBindings, isBinding_shifted t, areBindings_shifted ts]

theorem firstIsBinding_shifted : ∀ ts : List Tree, firstIsBinding (shiftedAll k ts) = firstIsBinding ts
  | [] => rfl
  | t :: _ => isBinding_shifted t

theorem lastIsBinding_shifted : ∀ ts : List Tree, lastIsBinding (shiftedAll k ts) = lastIsBinding ts
  | [] => rfl
  | [t] => isBinding_shifted t
  | _ :: t :: ts => lastIsBinding_shifted (t :: ts)

end

theorem asParameters_shifted (trailing : Bool) (ts : List Tree) :
    asParameters trailing (shiftedAll k ts) = (asParameters trailing ts).map (shiftedAll k) := by
  rw [asParameters, asParameters, restIsLast_shiftedAll, asPatterns_shifted]
  cases hlast : restIsLast trailing ts with
  | false => rfl
  | true =>
    cases asPatterns .item ts with
    | none => rfl
    | some ps =>
      simp only [Option.map_some, Option.bind_eq_bind, Option.bind_some, areBindings_shifted]
      cases areBindings ps <;> rfl

theorem arrowParameters?_shifted (t : Tree) :
    (t.shifted k).arrowParameters? = t.arrowParameters?.map (shiftedAll k) := by
  obtain ⟨label, span, children⟩ := t
  cases label with
  | paren =>
    match children with
    | [] => rfl
    | [.node label span items] =>
      cases label with
      | sequence => exact asParameters_shifted k false items
      | _ => exact asParameters_shifted k false [.node _ span items]
    | .node label span items :: _ :: _ => cases label <;> rfl
  | arrowHead trailing => exact asParameters_shifted k trailing children
  | _ => rfl

end Tree

end Relabel.Script
