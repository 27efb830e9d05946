import Relabel.Proofs.Extraction.Names
import Relabel.Proofs.Extraction.Resolution
import Relabel.Proofs.Fragment.Answers
import Relabel.Proofs.Fragment.Bindings

/-!
# Scoping of emitted programs

A path that starts with a variable of a loop is written into the emitted program as it is. There the
blocks and loops of the program say which declaration its name has (`Statement.bindings`), while the
scope at the place in the template says which loop it was looked up in (`Usage.lookedUp`). Both walk the
same nesting of loops, and they agree wherever `Matches` holds; entering a loop keeps it
(`Matches.enter`). They part in two places only (`Usage.Unshadowed`): a list is looked up outside of its
loop but written inside the loop's own declarations, and the value that flows into an element is written
inside the block that declares the element's variable. So emitted scoping is template scoping exactly
when no name is caught there (`bindings_eq_lookedUp_iff`).
-/

namespace Relabel
open Text Fragment

/-- The variable of a loop that a path is looked up as. -/
def Scope.loopVariable? (s : Scope) (path : String) : Option (LoopRole × Nat) :=
  match s.lookup path with
  | some (.loop _ role _ depth) => some (role, depth)
  | _ => none

/-- Paths with the variables that they are looked up as. -/
def Scope.lookedUp (s : Scope) (paths : List String) : List (String × Option (LoopRole × Nat)) :=
  paths.map fun path => (path, s.loopVariable? path)

namespace Usage

mutual

/-- The paths that are written for a usage, in the order of the emitted program, with the variables that
they are looked up as where the usage stands: the list of a loop outside of the loop. The variable of an
element is none of the template. -/
def lookedUp (t : Target) (s : Scope) : Usage → List (String × Option (LoopRole × Nat))
  | path span name q role => s.lookedUp ((pathRecord t span name q role).flatMap Statement.paths)
  | call span name q args =>
    s.lookedUp ((.run (.call (q.phrase name) (phrasesOf args)) ::
        referenceRecord t .method span q name).flatMap Statement.paths)
      ++ lookedUpOf t s args
  | literal _ => []
  | loop _ items frame _ children =>
    match items.phrase? with
    | none => []
    | some list =>
      let index := (frame.index.name, some (.index, s.depth + 1))
      index :: s.lookedUp list.paths ++ index :: s.lookedUp list.paths ++ index ::
        lookedUpOf t (s.enter frame) children
  | attributeName _ _ type _ => [(elementVariable type, none)]
  | listener span method q => s.lookedUp ((statements t (listener span method q)).flatMap Statement.paths)
  | dataFlow _ _ _ _ source twoWay =>
    s.lookedUp source.paths ++ if twoWay then s.lookedUp source.paths else []
  | callback kind span function items =>
    s.lookedUp ((statements t (callback kind span function items)).flatMap Statement.paths)

/-- The paths that are written for some usages, with the variables that they are looked up as. -/
def lookedUpOf (t : Target) (s : Scope) : List Usage → List (String × Option (LoopRole × Nat))
  | [] => []
  | u :: us => lookedUp t s u ++ lookedUpOf t s us

end

mutual

/-- No name of a usage is caught by a declaration that it is not looked up as: no list starts with a
variable of its own loop, the item is not called like the index that finds it, and no value that flows
into an element starts with the variable of the element. -/
def Unshadowed (s : Scope) : Usage → Prop
  | call _ _ _ args => UnshadowedOf s args
  | loop _ items frame _ children =>
    match items.phrase? with
    | none => True
    | some list =>
      (∀ path ∈ list.paths, ¬ frame.Knows (leadingSegment path)) ∧ frame.item.name ≠ frame.index.name ∧
        UnshadowedOf (s.enter frame) children
  | dataFlow _ _ type _ source _ =>
    ∀ path ∈ source.paths, (s.loopVariable? path).isSome → leadingSegment path ≠ elementVariable type
  | _ => True

/-- No name of some usages is caught. -/
def UnshadowedOf (s : Scope) : List Usage → Prop
  | [] => True
  | u :: us => Unshadowed s u ∧ UnshadowedOf s us

end

end Usage

/-- The scope of a template under some loops, outermost first. -/
def Site.scopeOf (site : Site) (t : TemplateUsages) (fs : List Frame) : Scope where
  owner := t.owner
  schema := site.schemas.get? t.owner
  frames := fs.reverse

/-- The paths that are written for a template, with the variables that they are looked up as. The function
of the template is none of them. -/
def Site.lookedUp (site : Site) (target : Target) (t : TemplateUsages) :
    List (String × Option (LoopRole × Nat)) :=
  if t.usages.isEmpty then []
  else Usage.lookedUpOf target (site.scopeOf t []) t.usages ++ [("renameFn", none)]

variable {t : Target} {s : Scope} {f : Frame} {sight : List (String × Declaration)} {depth : Nat}
  {path name : String} {p : Phrase} {u : Usage} {us : List Usage}

/-! ### Declarations in sight -/

namespace Scope

theorem loopVariable?_eq (s : Scope) (path : String) :
    s.loopVariable? path =
      (innermost? (leadingSegment path) s.frames).map fun (role, _, depth) => (role, depth) := by
  unfold loopVariable? lookup
  cases h : innermost? (leadingSegment path) s.frames with
  | some found => simp only [h, Option.map_some]
  | none =>
    simp only [h, Option.map_none]
    split
    · next hloop => simp [Option.bind_eq_some_iff] at hloop
    · rfl

theorem le_depth_of_loopVariable? {role : LoopRole} (h : s.loopVariable? path = some (role, depth)) :
    depth ≤ s.depth := by
  rw [loopVariable?_eq, Option.map_eq_some_iff] at h
  obtain ⟨⟨role', bound, d⟩, hfound, hd⟩ := h
  obtain ⟨inner, g, outer, hframes, -, rfl⟩ := exists_of_innermost? hfound
  obtain ⟨-, rfl⟩ := Prod.mk.inj hd
  rw [Scope.depth, hframes, List.length_append, List.length_cons]
  omega

theorem depth_enter (s : Scope) (f : Frame) : (s.enter f).depth = s.depth + 1 := rfl

theorem loopVariable?_enter (s : Scope) (f : Frame) (path : String) :
    (s.enter f).loopVariable? path =
      if f.item.name = leadingSegment path then some (.item, s.depth + 1)
      else if f.index.name = leadingSegment path then some (.index, s.depth + 1)
      else s.loopVariable? path := by
  rw [loopVariable?_eq, loopVariable?_eq, enter, innermost?, Frame.bound?]
  by_cases hitem : f.item.name = leadingSegment path
  · rw [if_pos hitem, if_pos hitem]
    rfl
  · rw [if_neg hitem, if_neg hitem]
    by_cases hindex : f.index.name = leadingSegment path
    · rw [if_pos hindex, if_pos hindex]
      rfl
    · rw [if_neg hindex, if_neg hindex]

end Scope

/-- The declarations in sight give a path the variable that it is looked up as. -/
def Matches (s : Scope) (sight : List (String × Declaration)) : Prop :=
  ∀ path, variableIn sight (leadingSegment path) = s.loopVariable? path

namespace Matches

theorem bindings (h : Matches s sight) (p : Phrase) : p.bindings sight = s.lookedUp p.paths :=
  List.map_congr_left fun path _ => by rw [h path]

/-- The declarations of a loop are in sight inside of it. -/
theorem enter (h : Matches s sight) (f : Frame) :
    Matches (s.enter f) ((f.item.name, .loop .item (s.depth + 1)) ::
      (f.index.name, .loop .index (s.depth + 1)) :: sight) := by
  intro path
  rw [variableIn_cons, variableIn_cons, Scope.loopVariable?_enter, h path]
  rfl

/-- A declaration of no loop catches the paths that start with its name. -/
theorem bindings_cons_iff (h : Matches s sight) {d : Declaration} (hd : d.loopVariable? = none) :
    p.bindings ((name, d) :: sight) = s.lookedUp p.paths ↔
      ∀ path ∈ p.paths, (s.loopVariable? path).isSome → leadingSegment path ≠ name := by
  rw [Phrase.bindings, Scope.lookedUp, List.map_inj_left]
  refine forall₂_congr fun path _ => ?_
  rw [Prod.mk.injEq, eq_self, true_and, variableIn_cons, h path, hd]
  by_cases hname : name = leadingSegment path
  · rw [if_pos hname, ← hname, eq_comm, ← Option.not_isSome_iff_eq_none]
    simp
  · rw [if_neg hname]
    simp [Ne.symm hname]

end Matches

/-! ### The same paths -/

section Paths
variable (t : Target) (depth : Nat) (sight : List (String × Declaration)) (s : Scope)

@[simp] theorem paths_lookedUp (paths : List String) : (s.lookedUp paths).map Prod.fst = paths := by
  rw [Scope.lookedUp, List.map_map]
  exact List.map_id _

end Paths

theorem Matches.bindingsOf_plain (h : Matches s sight) {ss : List Statement} (hss : ∀ st ∈ ss, st.IsPlain) :
    bindingsOf depth sight ss = s.lookedUp (ss.flatMap Statement.paths) := by
  induction ss with
  | nil => rfl
  | cons st ss ih =>
    rw [bindingsOf, ih fun st' hst => hss st' (List.mem_cons_of_mem _ hst), List.flatMap_cons,
      Scope.lookedUp, Scope.lookedUp, List.map_append]
    congr 1
    have hst := hss st (List.mem_cons_self ..)
    cases st with
    | run p => exact h.bindings p
    | record p => exact h.bindings p
    | assign target value =>
      rw [Statement.bindings, h.bindings, h.bindings, Statement.paths, List.map_append]
      rfl
    | _ => exact hst.elim

mutual

theorem paths_statements (t : Target) (s : Scope) (depth : Nat) (sight : List (String × Declaration)) :
    ∀ u : Usage, (bindingsOf depth sight (statements t u)).map Prod.fst = (u.lookedUp t s).map Prod.fst
  | .path span path q role => by
    rw [statements, paths_bindingsOf_plain fun st => isPlain_pathRecord, Usage.lookedUp, paths_lookedUp]
  | .call span name q args => by
    rw [statements, bindingsOf_append, List.map_append, paths_statementsOf t s depth sight args,
      paths_bindingsOf_plain fun st => isPlain_run_cons, Usage.lookedUp, List.map_append,
      paths_lookedUp]
  | .literal _ => rfl
  | .loop _ items frame _ children => by
    rw [statements, Usage.lookedUp]
    cases items.phrase? with
    | none => rfl
    | some list => simp [bindingsOf, Statement.bindings, paths_statementsOf t (s.enter frame) _ _ children]
  | .attributeName _ _ type _ => by
    simp [statements, elementBlock, bindingsOf, Statement.bindings, Usage.lookedUp, Target.record,
      Target.function, Phrase.paths, pathsOf]
  | .listener span method q => by
    rw [statements, paths_bindingsOf_plain fun st => isPlain_run_cons, Usage.lookedUp, paths_lookedUp,
      statements]
  | .dataFlow _ _ _ _ source twoWay => by
    cases twoWay <;>
      simp [statements, elementBlock, bindingsOf, Statement.bindings, Usage.lookedUp, Phrase.paths, pathsOf]
  | .callback kind _ _ _ => by
    cases kind <;> simp [statements, callbackCall, bindingsOf, Statement.bindings, Usage.lookedUp, Statement.paths]

theorem paths_statementsOf (t : Target) (s : Scope) (depth : Nat) (sight : List (String × Declaration)) :
    ∀ us : List Usage,
      (bindingsOf depth sight (statementsOf t us)).map Prod.fst = (Usage.lookedUpOf t s us).map Prod.fst
  | [] => rfl
  | u :: us => by
    rw [statementsOf, bindingsOf_append, List.map_append, paths_statements t s depth sight u,
      paths_statementsOf t s depth sight us, Usage.lookedUpOf, List.map_append]

end

/-! ### The same variables -/

theorem append_eq_append_iff_of_paths {a b c d : List (String × Option (LoopRole × Nat))}
    (h : a.map Prod.fst = b.map Prod.fst) : a ++ c = b ++ d ↔ a = b ∧ c = d := by
  refine ⟨fun heq => List.append_inj heq ?_, fun ⟨hab, hcd⟩ => by rw [hab, hcd]⟩
  simpa using congrArg List.length h

/-- In the head of a loop, the index is in sight. -/
theorem Matches.head_iff (h : Matches s sight) (f : Frame) :
    p.bindings ((f.index.name, .loop .index (s.depth + 1)) :: sight) = s.lookedUp p.paths ↔
      ∀ path ∈ p.paths, f.index.name ≠ leadingSegment path := by
  rw [Phrase.bindings, Scope.lookedUp, List.map_inj_left]
  refine forall₂_congr fun path _ => ?_
  rw [Prod.mk.injEq, eq_self, true_and, variableIn_cons, h path]
  by_cases hname : f.index.name = leadingSegment path
  · rw [if_pos hname, hname]
    refine iff_of_false (fun heq => ?_) (fun hne => hne rfl)
    have := Scope.le_depth_of_loopVariable? heq.symm
    omega
  · rw [if_neg hname]
    exact iff_of_true rfl hname

/-- In the block of a loop, both variables are. -/
theorem Matches.block_iff (h : Matches s sight) (f : Frame) :
    p.bindings ((f.item.name, .loop .item (s.depth + 1)) ::
        (f.index.name, .loop .index (s.depth + 1)) :: sight) = s.lookedUp p.paths ↔
      ∀ path ∈ p.paths, ¬ f.Knows (leadingSegment path) := by
  rw [(h.enter f).bindings, Scope.lookedUp, Scope.lookedUp, List.map_inj_left]
  refine forall₂_congr fun path _ => ?_
  rw [Prod.mk.injEq, eq_self, true_and, Scope.loopVariable?_enter, Frame.Knows]
  by_cases hitem : f.item.name = leadingSegment path
  · rw [if_pos hitem]
    refine iff_of_false (fun heq => ?_) (fun hne => hne (.inl hitem))
    have := Scope.le_depth_of_loopVariable? heq.symm
    omega
  · rw [if_neg hitem]
    by_cases hindex : f.index.name = leadingSegment path
    · rw [if_pos hindex]
      refine iff_of_false (fun heq => ?_) (fun hne => hne (.inr hindex))
      have := Scope.le_depth_of_loopVariable? heq.symm
      omega
    · rw [if_neg hindex]
      exact iff_of_true rfl fun hknows => hknows.elim hitem hindex

mutual

/-- What is written for a usage is bound as it is looked up if, and only if, no name is caught. -/
theorem bindings_eq_lookedUp_iff (t : Target) {s : Scope} {sight : List (String × Declaration)}
    (h : Matches s sight) :
    ∀ u : Usage, bindingsOf s.depth sight (statements t u) = u.lookedUp t s ↔ u.Unshadowed s
  | .path .. => iff_of_true (h.bindingsOf_plain fun _ => isPlain_pathRecord) trivial
  | .call span name q args => by
    rw [statements, bindingsOf_append, Usage.lookedUp, Usage.Unshadowed,
      ← bindingsOf_eq_lookedUpOf_iff t h args, h.bindingsOf_plain fun _ => isPlain_run_cons]
    exact List.append_right_inj _
  | .literal _ => iff_of_true rfl trivial
  | .loop _ items frame _ children => by
    rw [statements, Usage.lookedUp, Usage.Unshadowed]
    cases items.phrase? with
    | none => exact iff_of_true rfl trivial
    | some list =>
      have hindex : variableIn ((frame.index.name, .loop .index (s.depth + 1)) :: sight) frame.index.name =
          some (.index, s.depth + 1) := by
        rw [variableIn_cons, if_pos rfl]
        rfl
      have hitem : variableIn ((frame.item.name, .loop .item (s.depth + 1)) ::
            (frame.index.name, .loop .index (s.depth + 1)) :: sight) frame.index.name =
          some (.index, s.depth + 1) ↔ frame.item.name ≠ frame.index.name := by
        rw [variableIn_cons, hindex]
        split <;> simp [Declaration.loopVariable?, *]
      have hchildren := bindingsOf_eq_lookedUpOf_iff t (h.enter frame) children
      rw [Scope.depth_enter] at hchildren
      rw [bindingsOf, bindingsOf, List.append_nil, Statement.bindings, declared_statementsOf,
        append_eq_append_iff_of_paths (by simp), append_eq_append_iff_of_paths (by simp)]
      simp only [List.cons.injEq, Prod.mk.injEq, true_and, List.cons_append, List.nil_append]
      rw [h.head_iff frame, h.block_iff frame, hindex, hitem, hchildren]
      -- a list that starts with neither variable does not start with the index
      exact ⟨fun ⟨⟨_, _, hlist⟩, hnames, hinside⟩ => ⟨hlist, hnames, hinside⟩, fun ⟨hlist, hnames, hinside⟩ =>
        ⟨⟨⟨rfl, fun path hpath heq => hlist path hpath (.inr heq)⟩, rfl, hlist⟩, hnames, hinside⟩⟩
  | .attributeName _ _ type _ => by
    refine iff_of_true ?_ trivial
    have hname := leadingSegment_of_isName (isName_of_isVariable (isVariable_elementVariable type))
    simp only [statements, elementBlock, bindingsOf, Statement.bindings, Target.record, Usage.lookedUp]
    simp [Phrase.bindings, Phrase.paths, pathsOf, declared, hname, variableIn_cons, Declaration.loopVariable?,
      Target.function]
  | .listener .. => iff_of_true (h.bindingsOf_plain fun _ => isPlain_run_cons) trivial
  | .dataFlow _ tag type _ source twoWay => by
    have hsource : source.bindings ((elementVariable type, .element) :: sight) = s.lookedUp source.paths ↔
        ∀ path ∈ source.paths, (s.loopVariable? path).isSome → leadingSegment path ≠ elementVariable type :=
      h.bindings_cons_iff rfl
    rw [Usage.Unshadowed, ← hsource, bindingsOf_dataFlow, Usage.lookedUp,
      append_eq_append_iff_of_paths (by rw [paths_bindings, paths_lookedUp])]
    exact and_iff_left_of_imp fun heq => by rw [heq]
  | .callback kind .. => by
    cases kind <;> exact iff_of_true (h.bindingsOf_plain fun st hst => by
      obtain rfl := List.mem_singleton.1 hst
      trivial) trivial

theorem bindingsOf_eq_lookedUpOf_iff (t : Target) {s : Scope} {sight : List (String × Declaration)}
    (h : Matches s sight) :
    ∀ us : List Usage, bindingsOf s.depth sight (statementsOf t us) = Usage.lookedUpOf t s us ↔
      Usage.UnshadowedOf s us
  | [] => iff_of_true rfl trivial
  | u :: us => by
    rw [statementsOf, bindingsOf_append, Usage.lookedUpOf,
      append_eq_append_iff_of_paths (paths_statements t s s.depth sight u), bindings_eq_lookedUp_iff t h u,
      bindingsOf_eq_lookedUpOf_iff t h us, Usage.UnshadowedOf]

end

/-! ### Programs -/

section Programs
variable {site : Site} {document : Markup.Document} {d : DocumentUsages} {tpl : TemplateUsages}
  {object : String} {program : Statement}

theorem matches_scopeOf (site : Site) (tpl : TemplateUsages) :
    Matches (site.scopeOf tpl []) [("renameFn", .function)] := by
  intro path
  rw [Scope.loopVariable?_eq, variableIn_cons]
  split <;> rfl

theorem declared_templateStatements (t : Target) (tpl : TemplateUsages) :
    declared (templateStatements t tpl) = [] := by
  unfold templateStatements
  split <;> rfl

theorem bindingsOf_templateStatements (t : Target) (h : tpl.usages.isEmpty = false) :
    bindingsOf 0 [] (templateStatements t tpl) =
      bindingsOf 0 [("renameFn", .function)] (statementsOf t tpl.usages) ++ [("renameFn", none)] := by
  have hname : leadingSegment "renameFn" = "renameFn" := by decide
  rw [templateStatements, h, if_neg Bool.false_ne_true]
  simp [bindingsOf, Statement.bindings, declared, declared_statementsOf, Phrase.bindings, Phrase.paths, pathsOf,
    Target.function, hname, variableIn_cons, Declaration.loopVariable?]

theorem paths_templateStatements (site : Site) (t : Target) (tpl : TemplateUsages) :
    (bindingsOf 0 [] (templateStatements t tpl)).map Prod.fst = (site.lookedUp t tpl).map Prod.fst := by
  cases h : tpl.usages.isEmpty with
  | true => rw [templateStatements, Site.lookedUp, h]; rfl
  | false =>
    rw [bindingsOf_templateStatements t h, Site.lookedUp, h, if_neg Bool.false_ne_true, List.map_append,
      List.map_append, paths_statementsOf t (site.scopeOf tpl [])]

theorem bindings_templateStatements_iff (site : Site) (t : Target) (tpl : TemplateUsages) :
    bindingsOf 0 [] (templateStatements t tpl) = site.lookedUp t tpl ↔
      Usage.UnshadowedOf (site.scopeOf tpl []) tpl.usages := by
  cases h : tpl.usages.isEmpty with
  | true =>
    rw [templateStatements, Site.lookedUp, h, List.isEmpty_iff.1 h]
    exact iff_of_true rfl trivial
  | false =>
    rw [bindingsOf_templateStatements t h, Site.lookedUp, h, if_neg Bool.false_ne_true,
      List.append_left_inj]
    exact bindingsOf_eq_lookedUpOf_iff t (matches_scopeOf site tpl) tpl.usages

/-- The program of a document is bound as its names are looked up if, and only if, none is caught. -/
theorem bindings_program_iff (site : Site) (hp : Fragment.program object d = some program) :
    program.bindings 0 [] = ("window", none) :: d.templates.flatMap (site.lookedUp ⟨object, d.document⟩) ↔
      ∀ tpl ∈ d.templates, Usage.UnshadowedOf (site.scopeOf tpl []) tpl.usages := by
  have hdeclared : ∀ tpls : List TemplateUsages,
      declared (tpls.flatMap (templateStatements ⟨object, d.document⟩)) = [] := by
    intro tpls
    induction tpls with
    | nil => rfl
    | cons tpl tpls ih => rw [List.flatMap_cons, declared_append, declared_templateStatements, ih]; rfl
  have hbody : ∀ tpls : List TemplateUsages,
      bindingsOf 0 [] (tpls.flatMap (templateStatements ⟨object, d.document⟩)) =
          tpls.flatMap (site.lookedUp ⟨object, d.document⟩) ↔
        ∀ tpl ∈ tpls, Usage.UnshadowedOf (site.scopeOf tpl []) tpl.usages := by
    intro tpls
    induction tpls with
    | nil => exact iff_of_true rfl fun _ h => nomatch h
    | cons tpl tpls ih =>
      rw [List.flatMap_cons, List.flatMap_cons, bindingsOf_append,
        append_eq_append_iff_of_paths (paths_templateStatements site _ tpl),
        bindings_templateStatements_iff, ih, List.forall_mem_cons]
  rw [Fragment.program] at hp
  split at hp
  · cases hp
  · obtain rfl := Option.some.inj hp
    have hwindow (index : String) : (Phrase.element (.name "window") (.quoted index)).bindings [] =
        [("window", none)] := by
      simp [Phrase.bindings, Phrase.paths, variableIn]
    rw [Statement.bindings, hdeclared, hwindow, List.singleton_append, List.nil_append, List.cons.injEq,
      eq_self, true_and, hbody]

/-- The variable of a loop that a path is looked up as, by what it was qualified with. An item without a
name of its own is only told by its name. -/
def Qualifier.Denotes (q : Qualifier) (found : Option (LoopRole × Nat)) : Prop :=
  match q with
  | .component _ => found = none
  | .loop role _ depth => found = some (role, depth)
  | .item _ => ∃ depth, found = some (.item, depth)

theorem Settled.denotes {fs : List Frame} {q : Qualifier} (h : Settled 0 fs name q)
    (hs : s.frames = fs.reverse) : q.Denotes (s.loopVariable? name) := by
  obtain ⟨q', hq', rfl⟩ := h
  rw [Scope.loopVariable?_eq, hs]
  unfold Looked at hq'
  split at hq'
  · next role bound depth hfound =>
    subst hq'
    rw [hfound, Option.map_some]
    cases role with
    | index => rfl
    | item =>
      rw [Qualifier.settle]
      split
      · exact ⟨depth, rfl⟩
      · rfl
  · next hfound =>
    obtain ⟨renameable, rfl⟩ := hq'
    rw [hfound]
    rfl

/-- A reference of an extracted template is qualified by the variable that its name is looked up as in the
scope of its place, and the program of the document binds every path to the variable that the path is
looked up as if, and only if, no list starts with a variable of its own loop, no item is called like the
index of its loop and nothing that flows into an element starts with the variable of the element. -/
theorem scoped_of_extracts (h : site.Extracts document d) (hp : Fragment.program object d = some program) :
    (∀ tpl ∈ d.templates, ∀ fs u name q, Within tpl.usages fs u → u.reference? = some (name, q) →
      u.Introduces document.children fs ∨ u.NamesCallback document.children ∨
        q.Denotes ((site.scopeOf tpl fs).loopVariable? name)) ∧
    (program.bindings 0 [] = ("window", none) :: d.templates.flatMap (site.lookedUp ⟨object, d.document⟩) ↔
      ∀ tpl ∈ d.templates, Usage.UnshadowedOf (site.scopeOf tpl []) tpl.usages) := by
  refine ⟨fun tpl htpl fs u name q hu hq => ?_, bindings_program_iff site hp⟩
  have hdenotes {name' : String} {q' : Qualifier} (hq : some (name', q') = some (name, q))
      (h : Settled 0 fs name' q') : q.Denotes ((site.scopeOf tpl fs).loopVariable? name) := by
    obtain ⟨rfl, rfl⟩ := Prod.mk.inj (Option.some.inj hq)
    exact h.denotes rfl
  cases Site.origin_of_within h htpl hu with
  | path hp h => exact .inr (.inr (hdenotes hq h))
  | observed hp hf h => exact .inr (.inr (hdenotes hq h))
  | @variableName p role f hp hf hbound => exact .inl ⟨role, f, p, hp, hf, hbound, rfl⟩
  | @callbackName p attr renameable hp hattr => exact .inr (.inl ⟨attr, hattr, p, renameable, hp, rfl⟩)
  | call hp h => exact .inr (.inr (hdenotes hq h))
  | listener hp h => exact .inr (.inr (hdenotes hq h))
  | literal => cases hq
  | loop => cases hq
  | attributeName => cases hq
  | dataFlow => cases hq
  | callback => cases hq

/-- A list of lists: how the outer one names its item, and what the inner one is a list of. -/
def nestedSite (naming list : String) : Site where
  document := "d"
  source := "<dom-module id=\"x-a\"><template><dom-repeat items=\"[[xs]]\"" ++ naming
    ++ "><dom-repeat items=\"[[" ++ list ++ "]]\">[[item.a]]</dom-repeat></dom-repeat></template></dom-module>"
  schemas := ⟨[{ tag := "x-a", properties := [("xs", { renameable := true })] }], [("x-a", "XA")]⟩
  options := {}

/-- Whether the program of the document that a site is about is bound as its names are looked up. -/
def Site.isScoped? (site : Site) : Option Bool := do
  let document ← (Markup.read site.document site.source).toOption
  let d ← (site.extract document).toOption
  let program ← Fragment.program site.options.recordingObject d
  return program.bindings 0 [] ==
    ("window", none) :: d.templates.flatMap (site.lookedUp ⟨site.options.recordingObject, d.document⟩)

theorem Site.exists_of_isScoped? {answer : Bool} (h : site.isScoped? = some answer) :
    ∃ document d program, site.Extracts document d ∧
      Fragment.program site.options.recordingObject d = some program ∧
      (program.bindings 0 [] = ("window", none) ::
        d.templates.flatMap (site.lookedUp ⟨site.options.recordingObject, d.document⟩) ↔ answer = true) := by
  simp only [isScoped?, Option.bind_eq_bind, Option.bind_eq_some_iff, Option.pure_def, Option.some.injEq] at h
  obtain ⟨document, -, d, hd, program, hprogram, rfl⟩ := h
  refine ⟨document, d, program, .inl ?_, hprogram, beq_iff_eq.symm⟩
  cases hextract : site.extract document with
  | error e => rw [hextract] at hd; cases hd
  | ok d' =>
    rw [hextract] at hd
    obtain rfl := Option.some.inj hd
    rfl

/-- With a name of its own for the outer item, the lists are told apart, and no name is caught. -/
theorem scoped_of_extracts_row : ∃ document d program,
    (nestedSite " as=\"row\"" "row.ys").Extracts document d ∧
    Fragment.program "polymerRename" d = some program ∧
    ∀ tpl ∈ d.templates,
      Usage.UnshadowedOf ((nestedSite " as=\"row\"" "row.ys").scopeOf tpl []) tpl.usages := by
  obtain ⟨document, d, program, h, hp, hscoped⟩ :=
    Site.exists_of_isScoped?
      (show (nestedSite " as=\"row\"" "row.ys").isScoped? = some true by decide +kernel)
  exact ⟨document, d, program, h, hp, (scoped_of_extracts h hp).2.1 (hscoped.2 rfl)⟩

/-- Where both items have the standard name, the list of the inner loop is bound to the inner item. -/
theorem exists_extracts_unscoped : ∃ document d program,
    (nestedSite "" "item.ys").Extracts document d ∧ Fragment.program "polymerRename" d = some program ∧
    program.bindings 0 [] ≠ ("window", none) ::
      d.templates.flatMap ((nestedSite "" "item.ys").lookedUp ⟨"polymerRename", d.document⟩) := by
  obtain ⟨document, d, program, h, hp, hscoped⟩ :=
    Site.exists_of_isScoped? (show (nestedSite "" "item.ys").isScoped? = some false by decide +kernel)
  exact ⟨document, d, program, h, hp, fun heq => Bool.false_ne_true (hscoped.1 heq)⟩

end Programs

end Relabel
