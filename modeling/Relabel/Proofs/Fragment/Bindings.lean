import Relabel.Fragment.Emission

/-!
# What the names of an emitted program are bound to

`Statement.bindings` lists the paths of an emitted program that start with a variable, each with the
variable of a loop that the blocks of the program bind it to. A name stands for the innermost declaration
in sight; a `let` is in sight in all of its block.
-/

namespace Relabel.Fragment
open Text

/-- What declares a name of an emitted program. Loops are told apart by their depth, counted from one
outside. -/
inductive Declaration where
  | loop (role : LoopRole) (depth : Nat)
  | element
  | function
  deriving DecidableEq, Repr

/-- The variable of a loop that is declared. -/
def Declaration.loopVariable? : Declaration → Option (LoopRole × Nat)
  | .loop role depth => some (role, depth)
  | .element => none
  | .function => none

/-- The variable of a loop that a name is bound to where some declarations are in sight, innermost
first. -/
def variableIn (sight : List (String × Declaration)) (name : String) : Option (LoopRole × Nat) :=
  (sight.lookup name).bind Declaration.loopVariable?

mutual

/-- The paths of an expression that start with a variable. The object of a member is the recording
object, the document or the variable of an element, and none of them is a name of the template. -/
def Phrase.paths : Phrase → List String
  | .name path => [path]
  | .this _ => []
  | .literal _ => []
  | .quoted _ => []
  | .number _ => []
  | .member _ _ => []
  | .element object index => object.paths ++ index.paths
  | .call callee args => callee.paths ++ pathsOf args
  | .create _ args => pathsOf args
  | .typed _ value => value.paths

/-- The paths of some expressions. -/
def pathsOf : List Phrase → List String
  | [] => []
  | p :: ps => p.paths ++ pathsOf ps

end

/-- The paths of an expression with the variables they are bound to. -/
def Phrase.bindings (sight : List (String × Declaration)) (p : Phrase) :
    List (String × Option (LoopRole × Nat)) :=
  p.paths.map fun path => (path, variableIn sight (leadingSegment path))

/-- What some statements declare in the block that they make up, all of it. -/
def declared : List Statement → List (String × Declaration)
  | [] => []
  | .declare name _ :: ss => (name, .element) :: declared ss
  | .declareFunction name _ :: ss => (name, .function) :: declared ss
  | _ :: ss => declared ss

mutual

/-- The paths of a statement, in order, with the variables of loops that they are bound to, inside as many
loops as `depth` says. A `let` is in sight in all of its block, and the index of a loop in all of the loop;
the item is declared by the block. -/
def Statement.bindings (depth : Nat) (sight : List (String × Declaration)) :
    Statement → List (String × Option (LoopRole × Nat))
  | .run p => p.bindings sight
  | .record p => p.bindings sight
  | .declare _ value => value.bindings sight
  | .assign target value => target.bindings sight ++ value.bindings sight
  | .note _ => []
  | .block body => bindingsOf depth (declared body ++ sight) body
  | .declareFunction _ body => bindingsOf depth (declared body ++ sight) body
  | .assignFunction target body => target.bindings sight ++ bindingsOf depth (declared body ++ sight) body
  | .forEach index item items body =>
    let head := (index, .loop .index (depth + 1)) :: sight
    let block := (item, .loop .item (depth + 1)) :: declared body ++ head
    (index, variableIn head index) :: items.bindings head ++ (index, variableIn head index) ::
      items.bindings block ++ (index, variableIn block index) :: bindingsOf (depth + 1) block body

/-- The paths of some statements with the variables of loops that they are bound to. -/
def bindingsOf (depth : Nat) (sight : List (String × Declaration)) :
    List Statement → List (String × Option (LoopRole × Nat))
  | [] => []
  | s :: ss => s.bindings depth sight ++ bindingsOf depth sight ss

end

/-- The paths of a statement without statements inside. -/
def Statement.paths : Statement → List String
  | .run p => p.paths
  | .record p => p.paths
  | .declare _ value => value.paths
  | .assign target value => target.paths ++ value.paths
  | _ => []

/-- A statement that has no statements inside and declares nothing. -/
def Statement.IsPlain : Statement → Prop
  | .run _ => True
  | .record _ => True
  | .assign _ _ => True
  | _ => False

variable {t : Target} {depth : Nat} {sight : List (String × Declaration)} {path : String} {p : Phrase}

theorem variableIn_cons (sight : List (String × Declaration)) (n name : String) (d : Declaration) :
    variableIn ((n, d) :: sight) name = if n = name then d.loopVariable? else variableIn sight name := by
  rw [variableIn, List.lookup_cons]
  by_cases h : n = name
  · rw [if_pos h, h, beq_self_eq_true]
    rfl
  · rw [if_neg h, beq_eq_false_iff_ne.2 (Ne.symm h)]
    rfl

/-! ### Lists of statements -/

theorem bindingsOf_append (depth : Nat) (sight : List (String × Declaration)) (a b : List Statement) :
    bindingsOf depth sight (a ++ b) = bindingsOf depth sight a ++ bindingsOf depth sight b := by
  induction a with
  | nil => rfl
  | cons s ss ih => rw [List.cons_append, bindingsOf, ih, bindingsOf, List.append_assoc]

theorem declared_append (a b : List Statement) : declared (a ++ b) = declared a ++ declared b := by
  induction a with
  | nil => rfl
  | cons s ss ih => cases s <;> simp [declared, ih]

theorem isPlain_referenceRecord {recorder : Recorder} {span : Span} {q : Qualifier} {st : Statement}
    (h : st ∈ referenceRecord t recorder span q path) : st.IsPlain := by
  rw [referenceRecord, Option.mem_toList, Option.map_eq_some_iff] at h
  obtain ⟨args, -, rfl⟩ := h
  trivial

theorem isPlain_run_cons {recorder : Recorder} {span : Span} {q : Qualifier} {st : Statement}
    (h : st ∈ .run p :: referenceRecord t recorder span q path) : st.IsPlain := by
  rcases List.mem_cons.1 h with rfl | h
  · trivial
  · exact isPlain_referenceRecord h

theorem isPlain_pathRecord {span : Span} {q : Qualifier} {role : PathRole} {st : Statement}
    (h : st ∈ pathRecord t span path q role) : st.IsPlain := by
  unfold pathRecord at h
  split at h
  · obtain rfl := List.mem_singleton.1 h
    trivial
  · split at h
    · split at h
      · cases h
      · obtain rfl := List.mem_singleton.1 h
        trivial
    · exact isPlain_referenceRecord h

theorem declared_plain {ss : List Statement} (hss : ∀ st ∈ ss, st.IsPlain) : declared ss = [] := by
  induction ss with
  | nil => rfl
  | cons st ss ih =>
    have hst := hss st (List.mem_cons_self ..)
    cases st <;> first | exact hst.elim | exact ih fun st' h => hss st' (List.mem_cons_of_mem _ h)

@[simp] theorem paths_bindings (p : Phrase) : (p.bindings sight).map Prod.fst = p.paths := by
  rw [Phrase.bindings, List.map_map]
  exact List.map_id _

theorem paths_bindingsOf_plain {ss : List Statement} (hss : ∀ st ∈ ss, st.IsPlain) :
    (bindingsOf depth sight ss).map Prod.fst = ss.flatMap Statement.paths := by
  induction ss with
  | nil => rfl
  | cons st ss ih =>
    rw [bindingsOf, List.map_append, ih fun st' hst => hss st' (List.mem_cons_of_mem _ hst),
      List.flatMap_cons]
    congr 1
    have hst := hss st (List.mem_cons_self ..)
    cases st <;> first | exact hst.elim | simp [Statement.bindings, Statement.paths]

/-! ### Emitted statements -/

mutual

/-- What is written for a usage declares nothing outside of its own blocks. -/
theorem declared_statements (t : Target) : ∀ u : Usage, declared (statements t u) = []
  | .path .. => declared_plain fun _ => isPlain_pathRecord
  | .call span name q args => by
    rw [statements, declared_append, declared_statementsOf t args, List.append_nil]
    exact declared_plain fun _ => isPlain_run_cons
  | .literal _ => rfl
  | .loop _ items _ _ _ => by
    rw [statements]
    cases items.phrase? <;> rfl
  | .attributeName .. => rfl
  | .listener .. => declared_plain fun _ => isPlain_run_cons
  | .dataFlow .. => rfl
  | .callback kind .. => by cases kind <;> rfl

theorem declared_statementsOf (t : Target) : ∀ us : List Usage, declared (statementsOf t us) = []
  | [] => rfl
  | u :: us => by
    rw [statementsOf, declared_append, declared_statements t u, declared_statementsOf t us, List.append_nil]

end

/-- What flows into an element is written in the block of the element. -/
theorem bindingsOf_dataFlow (t : Target) (depth : Nat) (sight : List (String × Declaration)) (span : Span)
    (tag type property : String) (source : Phrase) (twoWay : Bool) :
    bindingsOf depth sight (statements t (.dataFlow span tag type property source twoWay)) =
      source.bindings ((elementVariable type, .element) :: sight) ++
        if twoWay then source.bindings ((elementVariable type, .element) :: sight) else [] := by
  have hmember (object : Phrase) (sight : List (String × Declaration)) :
      (object.member property).bindings sight = [] := rfl
  have hcreate (sight : List (String × Declaration)) : (Phrase.typed type
      (.call (.member (.name "document") "createElement") [.quoted tag])).bindings sight = [] := rfl
  cases twoWay <;>
    simp [statements, elementBlock, bindingsOf, Statement.bindings, declared, hmember, hcreate]

end Relabel.Fragment
