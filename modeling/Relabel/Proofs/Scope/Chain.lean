import Relabel.Proofs.Extraction.Lookup

/-!
# The stack of open loops

A scope is entered and left by loops in any order. What is open then are the loops that were entered and
not left again (`opened`), and a name stands for a variable of the innermost of them that knows it
(`Scope.Answers`).

The same scope can be kept as a `Chain`: all frames in the order in which they were opened, each with the
number of the frame around it, and a lookup that follows these numbers. A chain that was reached by entering
and leaving holds the component first, and behind it the open loops, each inside the one before it
(`Chain.Holds`). This is kept by every move (`Holds.move`), and with it the chain answers as the scope does
(`answers_of_moves`).
-/

namespace Relabel
open Text
variable {outer : List Frame} {f : Frame} {s : Scope} {schema : Option Schema} {owner path : String}

namespace Scope

/-- What happens to a scope: a loop is entered, or the innermost one is left. -/
inductive Move where
  | enter (frame : Frame)
  | leave
  deriving DecidableEq, Repr

/-- The scope after a move. The component is never left. -/
def move (s : Scope) : Move → Scope
  | .enter f => s.enter f
  | .leave => (s.leave?.map Prod.snd).getD s

def moved (s : Scope) (moves : List Move) : Scope :=
  moves.foldl move s

/-- The loops that are left open, innermost first, if the `k` innermost ones are left after some moves. The
last move comes first here, so of the loops entered those that are met first are the ones left. -/
def openedBefore : Nat → List Move → List Frame
  | _, [] => []
  | k, .leave :: moves => openedBefore (k + 1) moves
  | 0, .enter f :: moves => f :: openedBefore 0 moves
  | k + 1, .enter _ :: moves => openedBefore k moves

/-- The loops that were entered and not left again, innermost first. -/
def opened (moves : List Move) : List Frame :=
  openedBefore 0 moves.reverse

theorem openedBefore_succ (k : Nat) (moves : List Move) :
    openedBefore (k + 1) moves = (openedBefore k moves).tail := by
  induction moves generalizing k with
  | nil => rfl
  | cons m moves ih =>
    match m, k with
    | .leave, k => exact ih (k + 1)
    | .enter f, 0 => rfl
    | .enter f, k + 1 => exact ih k

theorem moved_concat (s : Scope) (moves : List Move) (m : Move) :
    s.moved (moves ++ [m]) = (s.moved moves).move m := by
  rw [moved, List.foldl_append, moved]
  rfl

/-- The component stays what it is, and the open loops are those that were entered and not left again. -/
theorem moved_eq (owner : String) (schema : Option Schema) (moves : List Move) :
    (Scope.mk owner schema []).moved moves = ⟨owner, schema, opened moves⟩ := by
  induction moves using List.reverseRecOn with
  | nil => rfl
  | append_singleton moves m ih =>
    have hopened : opened (moves ++ [m]) = openedBefore 0 (m :: moves.reverse) := by
      rw [opened, List.reverse_concat]
    rw [moved_concat, ih, hopened]
    cases m with
    | enter f => rfl
    | leave =>
      rw [openedBefore, openedBefore_succ, ← opened]
      cases opened moves <;> rfl

/-- A loop that is left before another one is entered, and a leave too many. -/
example (f g h : Frame) : opened [.enter f, .leave, .leave, .enter g, .enter h, .leave] = [g] := rfl

theorem lookup_cons (owner : String) (schema : Option Schema) (f : Frame) (outer : List Frame)
    (path : String) :
    lookup ⟨owner, schema, f :: outer⟩ path = match f.bound? (leadingSegment path) with
      | some (role, v) => some (.loop path role v (outer.length + 1))
      | none => lookup ⟨owner, schema, outer⟩ path := by
  simp only [lookup, innermost?]
  cases f.bound? (leadingSegment path) <;> rfl

/-- A scope with a component and some open loops, innermost first. -/
structure Answers (s : Scope) (owner : String) (schema : Option Schema) (frames : List Frame) : Prop where
  depth : s.depth = frames.length
  leave_nil : frames = [] → s.leave? = none ∧ s.move .leave = s
  leave_cons : ∀ f outer, frames = f :: outer → s.leave? = some (f, ⟨owner, schema, outer⟩)
  leave_enter : ∀ f, (s.enter f).depth = s.depth + 1 ∧ (s.enter f).leave? = some (f, s)
  innermost : ∀ path inner f outer, frames = inner ++ f :: outer → f.Knows (leadingSegment path) →
    (∀ g ∈ inner, ¬ g.Knows (leadingSegment path)) →
    s.lookup path = some (if f.item.name = leadingSegment path
      then .loop path .item f.item (outer.length + 1) else .loop path .index f.index (outer.length + 1))
  component : ∀ path, (∀ f ∈ frames, ¬ f.Knows (leadingSegment path)) →
    s.lookup path = (schema.bind (·.property? (leadingSegment path))).map
      fun property => .component path property.renameable owner
  method : ∀ path, s.methodRenameable? path = schema.bind (·.methodRenameable? (leadingSegment path))

theorem answers (owner : String) (schema : Option Schema) (frames : List Frame) :
    Answers ⟨owner, schema, frames⟩ owner schema frames where
  depth := rfl
  leave_nil h := by
    subst h
    exact ⟨rfl, rfl⟩
  leave_cons f outer h := by
    subst h
    rfl
  leave_enter f := ⟨rfl, rfl⟩
  innermost path inner f outer h hf hinner := by
    subst h
    have hbound : f.bound? (leadingSegment path) = some (if f.item.name = leadingSegment path
        then (.item, f.item) else (.index, f.index)) := by
      rw [Frame.bound?]
      split
      · rfl
      · next hitem => exact if_pos (hf.resolve_left hitem)
    split at hbound <;> simp only [lookup, innermost?_append hinner hbound, *, if_true, if_false]
  component path h := by
    simp only [lookup, innermost?_eq_none h, Option.map_eq_bind]
    cases schema <;> rfl
  method path := by cases schema <;> rfl

end Scope

/-! ### Chains -/

/-- What a frame makes visible: what is known of a component, or the variables of a loop. -/
inductive Exposed where
  | component (schema : Option Schema)
  | loop (frame : Frame)

/-- A frame with its tag and the number of the frame around it. -/
structure Link where
  tag : String
  exposed : Exposed
  parent : Option Nat

/-- Frames in the order in which they were opened. The frame around another one was opened before it. -/
@[ext]
structure Chain where
  links : List Link
  length_pos : 0 < links.length
  parent_lt : ∀ (i : Nat) (h : i < links.length) (p : Nat), links[i].parent = some p → p < i

namespace Chain
variable {c : Chain} {links : List Link} {i : Nat}

/-- The chain of a component without loops. -/
def root (owner : String) (schema : Option Schema) : Chain where
  links := [⟨owner, .component schema, none⟩]
  length_pos := Nat.one_pos
  parent_lt i h p hp := by
    obtain rfl := Nat.lt_one_iff.1 h
    cases hp

def depth (c : Chain) : Nat :=
  c.links.length - 1

/-- The frame of a loop inside the frame `i`. -/
def loopLink (i : Nat) (f : Frame) : Link :=
  ⟨"dom-repeat", .loop f, some i⟩

/-- Opens a loop inside the innermost frame. -/
def enter (c : Chain) (f : Frame) : Chain where
  links := c.links ++ [loopLink c.depth f]
  length_pos := by simp
  parent_lt i h p hp := by
    rw [List.length_append, List.length_singleton] at h
    rcases Nat.lt_succ_iff_lt_or_eq.1 h with hi | rfl
    · rw [List.getElem_append_left hi] at hp
      exact c.parent_lt i hi p hp
    · rw [List.getElem_concat_length rfl] at hp
      obtain rfl := Option.some.inj hp
      exact Nat.sub_lt c.length_pos Nat.one_pos

/-- Closes the innermost loop; the first frame is never closed. -/
def leave? (c : Chain) : Option (Link × Chain) :=
  if h : c.links.length = 1 then none
  else some (c.links.getLast (List.ne_nil_of_length_pos c.length_pos), {
    links := c.links.dropLast
    length_pos := by
      have := c.length_pos
      rw [List.length_dropLast]
      omega
    parent_lt := fun i hi p hp => by
      rw [List.getElem_dropLast] at hp
      exact c.parent_lt i _ p hp })

/-- Looks a path up in a frame and in those around it. -/
def lookupFrom (c : Chain) (path : String) (i : Nat) (h : i < c.links.length) : Option Resolution :=
  match c.links[i].exposed with
  | .component schema => do
    let property ← schema.bind (·.property? (leadingSegment path))
    return .component path property.renameable c.links[i].tag
  | .loop f =>
    match f.bound? (leadingSegment path) with
    | some (role, v) => some (.loop path role v i)
    | none =>
      match hp : c.links[i].parent with
      | some p => c.lookupFrom path p (Nat.lt_trans (c.parent_lt i h p hp) h)
      | none => none
termination_by i
decreasing_by exact c.parent_lt i h p hp

/-- Looks a path up, in the innermost frame first. -/
def lookup (c : Chain) (path : String) : Option Resolution :=
  c.lookupFrom path c.depth (Nat.sub_lt c.length_pos Nat.one_pos)

/-- Whether a method may be renamed, if what is known of the first frame has it. -/
def methodRenameable? (c : Chain) (path : String) : Option Bool :=
  match (c.links.head (List.ne_nil_of_length_pos c.length_pos)).exposed with
  | .component schema => schema.bind (·.methodRenameable? (leadingSegment path))
  | .loop _ => none

def move (c : Chain) : Scope.Move → Chain
  | .enter f => c.enter f
  | .leave => (c.leave?.map Prod.snd).getD c

def moved (c : Chain) (moves : List Scope.Move) : Chain :=
  moves.foldl move c

theorem links_enter (c : Chain) (f : Frame) : (c.enter f).links = c.links ++ [loopLink c.depth f] := rfl

theorem exists_leave? {l : Link} (h : c.links = links ++ [l]) (hlinks : 0 < links.length) :
    ∃ c' : Chain, c.leave? = some (l, c') ∧ c'.links = links := by
  have hlength : ¬ c.links.length = 1 := by
    rw [h, List.length_append, List.length_singleton]
    omega
  rw [leave?, dif_neg hlength]
  refine ⟨_, congrArg some (Prod.ext ?_ rfl), ?_⟩
  · simp only [h, List.getLast_concat]
  · simp only [h, List.dropLast_concat]

theorem leave?_enter (c : Chain) (f : Frame) : (c.enter f).leave? = some (loopLink c.depth f, c) := by
  obtain ⟨c', hleave, hlinks⟩ := exists_leave? (c.links_enter f) c.length_pos
  rw [hleave, Chain.ext hlinks]

theorem lookupFrom_component {tag : String} {parent : Option Nat} {hi : i < c.links.length}
    (h : c.links[i] = ⟨tag, .component schema, parent⟩) :
    c.lookupFrom path i hi = (schema.bind (·.property? (leadingSegment path))).map
      fun property => .component path property.renameable tag := by
  rw [lookupFrom]
  split
  · next schema' heq =>
    rw [h] at heq
    obtain rfl := Exposed.component.inj heq
    rw [h, Option.map_eq_bind]
    rfl
  · next f heq =>
    rw [h] at heq
    cases heq

theorem lookupFrom_loop {tag : String} {p : Nat} {hi : i < c.links.length}
    (h : c.links[i] = ⟨tag, .loop f, some p⟩) (hp : p < c.links.length) :
    c.lookupFrom path i hi = match f.bound? (leadingSegment path) with
      | some (role, v) => some (.loop path role v i)
      | none => c.lookupFrom path p hp := by
  rw [lookupFrom]
  split
  · next schema heq =>
    rw [h] at heq
    cases heq
  · next f' heq =>
    rw [h] at heq
    obtain rfl := Exposed.loop.inj heq
    split
    · rfl
    · split
      · next p' hp' =>
        rw [h] at hp'
        obtain rfl := Option.some.inj hp'
        rfl
      · next hp' =>
        rw [h] at hp'
        cases hp'

/-! ### A chain and a scope -/

/-- The frames of a scope: the component, and each open loop inside the frame before it. -/
def linksOf (s : Scope) : List Link :=
  ⟨s.owner, .component s.schema, none⟩ :: s.frames.reverse.mapIdx loopLink

theorem length_linksOf (s : Scope) : (linksOf s).length = s.depth + 1 := by
  rw [linksOf, List.length_cons, List.length_mapIdx, List.length_reverse, Scope.depth]

theorem linksOf_enter (s : Scope) (f : Frame) : linksOf (s.enter f) = linksOf s ++ [loopLink s.depth f] := by
  rw [linksOf, linksOf, Scope.enter, List.reverse_cons, List.mapIdx_concat, List.length_reverse]
  rfl

/-- The frame of a loop of a scope stands behind the frames of the loops around it. -/
theorem getElem?_linksOf {inner : List Frame} (h : s.frames = inner ++ f :: outer) :
    (linksOf s)[outer.length + 1]? = some (loopLink outer.length f) := by
  have hreverse : s.frames.reverse = outer.reverse ++ f :: inner.reverse := by simp [h]
  rw [linksOf, List.getElem?_cons_succ, hreverse, List.getElem?_mapIdx, ← List.length_reverse,
    List.getElem?_append_right (Nat.le_refl _), Nat.sub_self]
  rfl

/-- The chain and the scope hold the same component and the same loops. -/
def Holds (c : Chain) (s : Scope) : Prop :=
  c.links = linksOf s

theorem holds_root (owner : String) (schema : Option Schema) :
    (root owner schema).Holds ⟨owner, schema, []⟩ := rfl

namespace Holds

theorem depth (h : c.Holds s) : c.depth = s.depth := by
  rw [Chain.depth, h, length_linksOf, Nat.add_sub_cancel]

theorem enter (h : c.Holds s) (f : Frame) : (c.enter f).Holds (s.enter f) := by
  rw [Holds, linksOf_enter, links_enter, h.depth, h]

theorem leave?_nil (h : c.Holds s) (hs : s.frames = []) : c.leave? = none := by
  refine dif_pos ?_
  rw [h, length_linksOf, Scope.depth, hs]
  rfl

theorem exists_leave? (h : c.Holds ⟨owner, schema, f :: outer⟩) :
    ∃ c' : Chain, c.leave? = some (loopLink outer.length f, c') ∧ c'.Holds ⟨owner, schema, outer⟩ := by
  refine Chain.exists_leave? (Eq.trans h (linksOf_enter ⟨owner, schema, outer⟩ f)) ?_
  rw [length_linksOf]
  exact Nat.succ_pos _

theorem move (h : c.Holds s) (m : Scope.Move) : (c.move m).Holds (s.move m) := by
  cases m with
  | enter f => exact h.enter f
  | leave =>
    obtain ⟨owner, schema, frames⟩ := s
    cases frames with
    | nil =>
      rw [Chain.move, h.leave?_nil rfl]
      exact h
    | cons f outer =>
      obtain ⟨c', hleave, hc'⟩ := h.exists_leave?
      rw [Chain.move, hleave]
      exact hc'

theorem moved (h : c.Holds s) (moves : List Scope.Move) : (c.moved moves).Holds (s.moved moves) := by
  induction moves generalizing c s with
  | nil => exact h
  | cons m moves ih => exact ih (h.move m)

theorem getElem_eq (h : c.Holds s) {l : Link} (hi : i < c.links.length) (hl : (linksOf s)[i]? = some l) :
    c.links[i] = l := by
  rw [← h, List.getElem?_eq_getElem hi] at hl
  exact Option.some.inj hl

/-- From the frame of a loop on the chain finds what the scope around it finds. -/
theorem lookupFrom_eq (h : c.Holds s) {inner : List Frame} (hs : s.frames = inner ++ outer)
    (hlt : outer.length < c.links.length) :
    c.lookupFrom path outer.length hlt = Scope.lookup ⟨s.owner, s.schema, outer⟩ path := by
  induction outer generalizing inner with
  | nil =>
    rw [(Scope.answers ..).component path (by simp)]
    exact lookupFrom_component (h.getElem_eq hlt rfl)
  | cons f outer ih =>
    have hparent : outer.length < c.links.length := Nat.lt_of_succ_lt hlt
    have hframes : s.frames = inner ++ [f] ++ outer := by simp [hs]
    rw [Scope.lookup_cons, ← ih hframes hparent]
    exact lookupFrom_loop (h.getElem_eq hlt (getElem?_linksOf hs)) hparent

theorem lookup_eq (h : c.Holds s) (path : String) : c.lookup path = s.lookup path := by
  have hdepth := h.depth
  have hlt : s.frames.length < c.links.length := by
    rw [h, length_linksOf]
    exact Nat.lt_succ_self _
  rw [lookup, ← h.lookupFrom_eq (List.nil_append s.frames).symm hlt]
  simp only [hdepth, Scope.depth]

theorem methodRenameable?_eq (h : c.Holds s) (path : String) :
    c.methodRenameable? path = s.methodRenameable? path := by
  have hhead : c.links.head (List.ne_nil_of_length_pos c.length_pos) =
      ⟨s.owner, .component s.schema, none⟩ := by
    rw [Holds] at h
    simp only [h, linksOf, List.head_cons]
  rw [(Scope.answers s.owner s.schema s.frames).method path, methodRenameable?, hhead]

end Holds

/-- The chain answers as the scope does, and each of its frames is found in the right place. -/
structure Agrees (c : Chain) (s : Scope) : Prop where
  links : c.Holds s
  depth : c.depth = s.depth
  leave_nil : s.leave? = none → c.leave? = none ∧ c.move .leave = c
  leave_cons : ∀ f s', s.leave? = some (f, s') → ∃ c', c.leave? = some (loopLink s'.depth f, c') ∧ c'.Holds s'
  leave_enter : ∀ f, (c.enter f).depth = c.depth + 1 ∧ (c.enter f).leave? = some (loopLink c.depth f, c)
  lookup : ∀ path, c.lookup path = s.lookup path
  method : ∀ path, c.methodRenameable? path = s.methodRenameable? path

theorem Holds.agrees (h : c.Holds s) : c.Agrees s where
  links := h
  depth := h.depth
  leave_nil hs := by
    have hnone : c.leave? = none := by
      obtain ⟨owner, schema, _ | ⟨f, frames⟩⟩ := s
      · exact h.leave?_nil rfl
      · cases hs
    exact ⟨hnone, by rw [Chain.move, hnone]; rfl⟩
  leave_cons f s' hs := by
    obtain ⟨owner, schema, _ | ⟨f', frames⟩⟩ := s
    · cases hs
    · cases hs
      exact h.exists_leave?
  leave_enter f := by
    refine ⟨?_, c.leave?_enter f⟩
    rw [(h.enter f).depth, h.depth]
    rfl
  lookup := h.lookup_eq
  method := h.methodRenameable?_eq

end Chain

/-- After any moves a scope has the component that it was made for and the loops that were entered and not
left again, and it answers by them; the chain of frames that went through the same moves agrees with it. -/
theorem answers_of_moves (owner : String) (schema : Option Schema) (moves : List Scope.Move) :
    ((Scope.mk owner schema []).moved moves).Answers owner schema (Scope.opened moves) ∧
      ((Chain.root owner schema).moved moves).Agrees ((Scope.mk owner schema []).moved moves) := by
  refine ⟨?_, ((Chain.holds_root owner schema).moved moves).agrees⟩
  rw [Scope.moved_eq]
  exact Scope.answers owner schema (Scope.opened moves)

end Relabel
