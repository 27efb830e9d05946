import Relabel.Proofs.Recovery.Calls

/-!
# Recording calls of emitted programs

`Tally object ts rs`: the recording calls in the trees `ts` are `rs`, and what `ts` calls of the
recording object are functions that it has. A program whose phrases say so statement by statement
(`Tame`) has as recording calls the phrases of its `record` statements: `tally_of_tameAll`.
-/

namespace Relabel.Fragment
open Script
variable {object : String} {ts ts' rs rs' : List Script.Tree} {t : Script.Tree} {l : Label}

mutual

/-- The phrases of the recording calls of a statement. -/
def Statement.recordings : Statement → List Phrase
  | .record p => [p]
  | .block body => recordingsOf body
  | .declareFunction _ body => recordingsOf body
  | .assignFunction _ body => recordingsOf body
  | .forEach _ _ _ body => recordingsOf body
  | _ => []

/-- The phrases of the recording calls of some statements. -/
def recordingsOf : List Statement → List Phrase
  | [] => []
  | s :: ss => s.recordings ++ recordingsOf ss

end

mutual

theorem Statement.length_recordings : ∀ s : Statement, s.recordings.length = s.records
  | .record _ => rfl
  | .block body => length_recordingsOf body
  | .declareFunction _ body => length_recordingsOf body
  | .assignFunction _ body => length_recordingsOf body
  | .forEach _ _ _ body => length_recordingsOf body
  | .run _ => rfl
  | .declare _ _ => rfl
  | .assign _ _ => rfl
  | .note _ => rfl

theorem length_recordingsOf : ∀ ss : List Statement, (recordingsOf ss).length = recordsOf ss
  | [] => rfl
  | s :: ss => by
    rw [recordingsOf, List.length_append, s.length_recordings, length_recordingsOf ss, recordsOf]

end

theorem recordingsOf_append (ss ss' : List Statement) :
    recordingsOf (ss ++ ss') = recordingsOf ss ++ recordingsOf ss' := by
  induction ss with
  | nil => rfl
  | cons s ss ih => rw [List.cons_append, recordingsOf, recordingsOf, ih, List.append_assoc]

/-! ### Trees -/

/-- The recording calls in some trees are `rs`, and what the trees call of the recording object are
functions that it has. -/
structure Tally (object : String) (ts rs : List Script.Tree) : Prop where
  recording : recordingParts object ts = rs
  functions : CallsFunctions object ts

theorem tally_nil : Tally object [] [] :=
  ⟨rfl, fun u hu => by cases hu⟩

theorem partsOf_append (ts ts' : List Script.Tree) :
    Tree.partsOf (ts ++ ts') = Tree.partsOf ts ++ Tree.partsOf ts' := by
  simp only [Tree.partsOf_eq_flatMap, List.flatMap_append]

theorem Tally.append (h : Tally object ts rs) (h' : Tally object ts' rs') :
    Tally object (ts ++ ts') (rs ++ rs') := by
  refine ⟨?_, fun u hu => ?_⟩
  · rw [recordingParts, partsOf_append, List.filter_append, ← h.recording, ← h'.recording]
    rfl
  · rw [partsOf_append] at hu
    rcases List.mem_append.1 hu with hu | hu
    · exact h.functions u hu
    · exact h'.functions u hu

theorem Tally.cons (h : Tally object [t] rs) (h' : Tally object ts rs') :
    Tally object (t :: ts) (rs ++ rs') :=
  h.append h'

/-- A call of a function of the object is a recording call if the function is a recorder. -/
theorem Tally.node (h : Tally object ts rs)
    (hcalled : ∀ name ∈ called? object (branch l ts), name ∈ functionNames object) :
    Tally object [branch l ts]
      ((if isRecording object (branch l ts) then [branch l ts] else []) ++ rs) := by
  have hparts : Tree.partsOf [branch l ts] = branch l ts :: Tree.partsOf ts := by
    rw [Tree.partsOf, Tree.partsOf, List.append_nil, branch, Tree.parts]
  refine ⟨?_, fun u hu => ?_⟩
  · rw [recordingParts_single, ← h.recording]
    rfl
  · rw [hparts] at hu
    rcases List.mem_cons.1 hu with rfl | hu
    · exact hcalled
    · exact h.functions u hu

/-- What is no call of a function of the object has the recording calls of its parts. -/
theorem Tally.branch (h : Tally object ts rs) (hnone : called? object (branch l ts) = none) :
    Tally object [branch l ts] rs := by
  have hnot : isRecording object (Fragment.branch l ts) = false := by rw [isRecording, hnone]; rfl
  have := h.node (l := l) (by simp [hnone])
  rwa [hnot] at this

/-! ### Statements -/

mutual

/-- A statement whose `record` statements are recording calls, and nothing else of it is one. -/
def Statement.Tame (object : String) : Statement → Prop
  | .run p => Tally object [p.item.tree] []
  | .record p => Tally object [p.item.tree] [p.item.tree]
  | .declare _ value => Tally object [value.item.tree] []
  | .assign target value => Tally object [target.item.tree] [] ∧ Tally object [value.item.tree] []
  | .note _ => True
  | .block body => TameAll object body
  | .declareFunction _ body => TameAll object body
  | .assignFunction target body => Tally object [target.item.tree] [] ∧ TameAll object body
  | .forEach _ _ items body => Tally object [items.item.tree] [] ∧ TameAll object body

/-- Statements whose `record` statements are recording calls, and nothing else of them is one. -/
def TameAll (object : String) : List Statement → Prop
  | [] => True
  | s :: ss => s.Tame object ∧ TameAll object ss

end

theorem tameAll_append {ss ss' : List Statement} (h : TameAll object ss) (h' : TameAll object ss') :
    TameAll object (ss ++ ss') := by
  induction ss with
  | nil => exact h'
  | cons s ss ih => exact ⟨h.1, ih h.2⟩

theorem tally_leaf (h : ∀ isOptional, l ≠ .call isOptional) : Tally object [branch l []] [] := by
  refine tally_nil.branch ?_
  rw [called?]
  split
  · next isOptional hlabel => exact absurd hlabel (h isOptional)
  · rfl

theorem Tally.members (h : Tally object [t] rs) (ns : List String) :
    Tally object [memberTree t ns] rs := by
  induction ns generalizing t with
  | nil => exact h
  | cons n ns ih => exact ih (h.branch rfl)

theorem tally_path (ns : List String) : Tally object [(pathItem ns).tree] [] := by
  cases ns with
  | nil => exact tally_leaf (by simp)
  | cons n ns => exact (tally_leaf (by simp)).members ns

theorem tally_declarator {name : String} {rs : List Script.Tree} (h : Tally object [t] rs) :
    Tally object [declaratorTree name t] rs :=
  (((tally_leaf (by simp)).cons h).branch rfl).branch rfl

mutual

theorem Statement.tally : ∀ {s : Statement}, s.Tame object →
    Tally object (s.items.map Item.tree) (s.recordings.map fun p => p.item.tree)
  | .run _, h => Tally.branch h rfl
  | .record _, h => Tally.branch h rfl
  | .declare _ _, h => tally_declarator h
  | .assign _ _, h => ((h.1.cons h.2).branch rfl).branch rfl
  | .note _, _ => tally_nil
  | .block _, h => (tally_of_tameAll h).branch rfl
  | .declareFunction _ _, h => by
    have hbody := (tally_of_tameAll h).branch (l := .body) rfl
    have hparameters := @tally_leaf object .parameters (by simp)
    exact tally_declarator ((hparameters.cons hbody).branch rfl)
  | .assignFunction _ _, h => by
    have hbody := (tally_of_tameAll h.2).branch (l := .body) rfl
    have hparameters := @tally_leaf object .parameters (by simp)
    exact ((h.1.cons ((hparameters.cons hbody).branch rfl)).branch rfl).branch rfl
  | .forEach index item items body, ⟨hitems, hbody⟩ => by
    have hindex := @tally_leaf object (.identifier index) (by simp)
    have hstart := @tally_declarator object _ index _ (@tally_leaf object (.number (wholeDouble 0)) (by simp))
    have hlength := hitems.branch (l := .member "length" false) rfl
    have htest := (hindex.cons hlength).branch (l := .binary "<") rfl
    have hstep := hindex.branch (l := .update "++" false) rfl
    have helement := (hitems.cons (tally_path (segments index))).branch (l := .element false) rfl
    have hfirst := @tally_declarator object _ item _ helement
    have hblock := (hfirst.cons (tally_of_tameAll hbody)).branch (l := .block) rfl
    exact ((hstart.cons (htest.cons (hstep.cons hblock))).branch (l := .statement "for") rfl)

theorem tally_of_tameAll : ∀ {ss : List Statement}, TameAll object ss →
    Tally object ((itemsOfAll ss).map Item.tree) ((recordingsOf ss).map fun p => p.item.tree)
  | [], _ => tally_nil
  | s :: ss, h => by
    rw [itemsOfAll, recordingsOf, List.map_append, List.map_append]
    exact (Statement.tally h.1).append (tally_of_tameAll h.2)

end

end Relabel.Fragment
