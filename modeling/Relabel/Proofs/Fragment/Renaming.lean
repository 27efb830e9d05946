import Relabel.Proofs.Fragment.Programs
import Relabel.Proofs.Recovery.References

/-!
# Programs with other names

A renamer turns an emitted program into another one: properties get new names by `s` and variables by `v`,
and texts, numbers and types stay (`Statement.renamed`). If the new names are such as a program may have
(`Renames`), what it writes is read, and it is the tree of the program, renamed: `read?_renamed`.
-/

namespace Relabel.Fragment
open Script
variable {s v : String → String} {p : Phrase} {w path : String}

/-- New names for properties and variables. No other variable gets the name `let`, and the names that an
emitted program has by itself stay. -/
structure Renames (s v : String → String) : Prop where
  names : ∀ n, isName n = true → isName (s n) = true
  identifiers : ∀ n, isIdentifier n = true → isIdentifier (v n) = true
  onlyLet : ∀ n, v n = "let" → n = "let"
  length : s "length" = "length"
  window : v "window" = "window"

/-! ### Phrases -/

mutual

/-- A phrase with other names. -/
def Phrase.renamed (s v : String → String) : Phrase → Phrase
  | .name path => .name (joined "." (v (Text.leadingSegment path) :: (segments path).tail.map s))
  | .this path => .this (joined "." ((segments path).map s))
  | .literal t => .literal t
  | .quoted t => .quoted t
  | .number n => .number n
  | .member object property => .member (object.renamed s v) (joined "." ((segments property).map s))
  | .element object index => .element (object.renamed s v) (index.renamed s v)
  | .call callee args => .call (callee.renamed s v) (renamedPhrases s v args)
  | .create constructor args => .create (v constructor) (renamedPhrases s v args)
  | .typed type value => .typed type (value.renamed s v)

/-- Phrases with other names. -/
def renamedPhrases (s v : String → String) : List Phrase → List Phrase
  | [] => []
  | p :: ps => p.renamed s v :: renamedPhrases s v ps

end

theorem segments_joined {ns : List String} (h : ∀ n ∈ ns, isName n = true) (hne : ns ≠ []) :
    segments (joined "." ns) = ns := by
  have hdot : ∀ cs ∈ ns.map String.toList, '.' ∉ cs := by
    intro cs hcs hmem
    obtain ⟨n, hn, rfl⟩ := List.mem_map.1 hcs
    obtain ⟨c, ds, hchars, -, hall⟩ := chars_of_isName (h n hn)
    exact ne_of_continuesName (hall '.' (hchars ▸ hmem)) (by decide) rfl
  have hsplit := List.splitOn_intercalate '.' hdot (by simpa using hne)
  have htext : (joined "." ns).toList = ['.'].intercalate (ns.map String.toList) := by
    rw [joined, String.toList_intercalate]
    rfl
  rw [segments, htext, hsplit, List.map_map]
  exact (List.map_congr_left fun n _ => String.ofList_toList).trans (List.map_id _)

theorem isName_of_mem_map (h : Renames s v) {ns : List String} (hns : ∀ n ∈ ns, isName n = true) :
    ∀ n ∈ ns.map s, isName n = true := by
  intro n hn
  obtain ⟨m, hm, rfl⟩ := List.mem_map.1 hn
  exact h.names m (hns m hm)

theorem segments_joined_map (h : Renames s v) (hpath : ∀ n ∈ segments path, isName n = true) :
    segments (joined "." ((segments path).map s)) = (segments path).map s :=
  segments_joined (isName_of_mem_map h hpath) (by simpa using segments_ne_nil path)

/-- The parts of a path of a variable, with other names. -/
theorem segments_renamed (h : Renames s v) (hpath : (Phrase.name path).Ok) :
    segments (joined "." (v (Text.leadingSegment path) :: (segments path).tail.map s)) =
        v (Text.leadingSegment path) :: (segments path).tail.map s ∧
      isIdentifier (v (Text.leadingSegment path)) = true ∧
      ∀ n ∈ (segments path).tail.map s, isName n = true := by
  obtain ⟨n, ns, hsegments, hn, hns⟩ := hpath
  have hcons := segments_eq_cons path
  rw [hsegments] at hcons ⊢
  obtain ⟨rfl, -⟩ := List.cons.inj hcons
  have hidentifier := h.identifiers _ hn
  have hnames := isName_of_mem_map h hns
  refine ⟨segments_joined ?_ (List.cons_ne_nil _ _), hidentifier, hnames⟩
  intro m hm
  rcases List.mem_cons.1 hm with rfl | hm
  · exact isName_of_isIdentifier hidentifier
  · exact hnames m hm

theorem renamed_name (hw : isName w = true) : (Phrase.name w).renamed s v = .name (v w) := by
  have hcons := segments_eq_cons w
  rw [segments_of_isName hw] at hcons
  rw [Phrase.renamed, segments_of_isName hw, ← (List.cons.inj hcons).1]
  simp [joined]

theorem isAccess_renamed (p : Phrase) : (p.renamed s v).isAccess = p.isAccess := by
  cases p <;> rfl

theorem isTarget_renamed (p : Phrase) : (p.renamed s v).isTarget = p.isTarget := by
  cases p <;> rfl

theorem isLet_renamed (h : Renames s v) (hp : p.Ok) (hlet : p.isLet = false) :
    (p.renamed s v).isLet = false := by
  cases p with
  | name path =>
    obtain ⟨hsegments, -, -⟩ := segments_renamed h hp
    rw [Phrase.isLet, beq_eq_false_iff_ne] at hlet
    rw [Phrase.renamed, Phrase.isLet, beq_eq_false_iff_ne]
    intro hjoined
    have hword : segments "let" = ["let"] := segments_of_isName (by decide)
    rw [hjoined, hword] at hsegments
    obtain ⟨hleading, htail⟩ := List.cons.inj hsegments
    have hpath := segments_eq_cons path
    rw [h.onlyLet _ hleading.symm, List.map_eq_nil_iff.1 htail.symm] at hpath
    exact hlet (eq_of_segments_eq hpath)
  | _ => rfl

theorem indexesLet_renamed (h : Renames s v) : ∀ {p : Phrase}, p.Ok → p.indexesLet = false →
    (p.renamed s v).indexesLet = false
  | .element object _, hp, hlet => by
    rw [Phrase.indexesLet, Bool.or_eq_false_iff] at hlet
    rw [Phrase.renamed, Phrase.indexesLet, isLet_renamed h hp.2.1 hlet.1, indexesLet_renamed h hp.2.1 hlet.2]
    rfl
  | .member object _, hp, hlet => by
    rw [Phrase.renamed, Phrase.indexesLet, indexesLet_renamed h hp.2.1 hlet]
  | .call callee _, hp, hlet => by
    rw [Phrase.renamed, Phrase.indexesLet, indexesLet_renamed h hp.2.1 hlet]
  | .name _, _, _ => rfl
  | .this _, _, _ => rfl
  | .literal _, _, _ => rfl
  | .quoted _, _, _ => rfl
  | .number _, _, _ => rfl
  | .create _ _, _, _ => rfl
  | .typed _ _, _, _ => rfl

mutual

theorem Phrase.ok_renamed (h : Renames s v) : ∀ {p : Phrase}, p.Ok → (p.renamed s v).Ok
  | .name path, hp => by
    obtain ⟨hsegments, hidentifier, hnames⟩ := segments_renamed h hp
    exact ⟨_, _, hsegments, hidentifier, hnames⟩
  | .this path, hp => by
    rw [Phrase.renamed, Phrase.Ok, segments_joined_map h hp]
    exact isName_of_mem_map h hp
  | .literal _, hp => hp
  | .quoted _, hp => hp
  | .number _, hp => hp
  | .member object property, ⟨haccess, hobject, hproperty⟩ => by
    refine ⟨(isAccess_renamed object).trans haccess, object.ok_renamed h hobject, ?_⟩
    rw [segments_joined_map h hproperty]
    exact isName_of_mem_map h hproperty
  | .element object index, ⟨haccess, hobject, hindex⟩ =>
    ⟨(isAccess_renamed object).trans haccess, object.ok_renamed h hobject, index.ok_renamed h hindex⟩
  | .call callee args, ⟨haccess, hcallee, hargs⟩ =>
    ⟨(isAccess_renamed callee).trans haccess, callee.ok_renamed h hcallee, allOk_renamed h hargs⟩
  | .create _ _, ⟨hconstructor, hargs⟩ =>
    ⟨h.identifiers _ hconstructor, allOk_renamed h hargs⟩
  | .typed _ value, ⟨htype, hvalue⟩ => ⟨htype, value.ok_renamed h hvalue⟩

theorem allOk_renamed (h : Renames s v) : ∀ {ps : List Phrase}, AllOk ps → AllOk (renamedPhrases s v ps)
  | [], _ => trivial
  | p :: _, ⟨hp, hps⟩ => ⟨p.ok_renamed h hp, allOk_renamed h hps⟩

end

/-- A number or a text has no names. -/
theorem renamed_plainLiteral {cs : List Char} {a : Item} (h : plainLiteral? cs = some a) :
    a.tree.renamed s v = a.tree := by
  rw [plainLiteral?] at h
  split at h
  · obtain rfl := Option.some.inj h
    rfl
  · obtain rfl := Option.some.inj h
    rfl
  · cases h

theorem renamed_literal {t : String} {a : Item} (h : literal? t = some a) : a.tree.renamed s v = a.tree := by
  have hsigned {cs : List Char} {sign : String} (h : (plainLiteral? cs).map (signedItem sign) = some a) :
      a.tree.renamed s v = a.tree := by
    obtain ⟨b, hb, rfl⟩ := Option.map_eq_some_iff.1 h
    rw [signedItem, branch, Tree.renamed, Tree.renamedAll, renamed_plainLiteral hb]
    rfl
  rw [literal?] at h
  split at h
  · exact hsigned h
  · exact hsigned h
  · exact renamed_plainLiteral h

mutual

/-- A phrase with other names is its tree with other names. -/
theorem Phrase.tree_renamed (h : Renames s v) : ∀ {p : Phrase}, p.Ok →
    (p.renamed s v).item.tree = p.item.tree.renamed s v
  | .name path, hp => by
    obtain ⟨hsegments, -, -⟩ := segments_renamed h hp
    rw [Phrase.renamed, Phrase.item, hsegments, Phrase.item, segments_eq_cons path, pathItem, pathItem,
      renamed_memberTree]
    rfl
  | .this path, hp => by
    rw [Phrase.renamed, Phrase.item, segments_joined_map h hp, Phrase.item, thisItem, thisItem,
      renamed_memberTree]
    rfl
  | .literal t, hp => by
    obtain ⟨a, ha⟩ := Option.isSome_iff_exists.1 hp
    rw [Phrase.renamed, Phrase.item, ha, Option.getD_some, renamed_literal ha]
  | .quoted _, _ => rfl
  | .number _, _ => rfl
  | .member object property, ⟨_, hobject, hproperty⟩ => by
    rw [Phrase.renamed, Phrase.item, segments_joined_map h hproperty, Phrase.item, renamed_memberTree,
      object.tree_renamed h hobject]
  | .element object index, ⟨_, hobject, hindex⟩ => by
    rw [Phrase.renamed, Phrase.item, Phrase.item, object.tree_renamed h hobject, index.tree_renamed h hindex]
    rfl
  | .call callee args, ⟨_, hcallee, hargs⟩ => by
    rw [Phrase.renamed, Phrase.item, Phrase.item, callee.tree_renamed h hcallee, trees_renamed h hargs]
    rfl
  | .create constructor args, ⟨_, hargs⟩ => by
    rw [Phrase.renamed, Phrase.item, Phrase.item, trees_renamed h hargs]
    rfl
  | .typed type value, ⟨_, hvalue⟩ => by
    rw [Phrase.renamed, Phrase.item, Phrase.item, value.tree_renamed h hvalue]
    rfl

theorem trees_renamed (h : Renames s v) : ∀ {ps : List Phrase}, AllOk ps →
    (itemsOf (renamedPhrases s v ps)).map Item.tree = Tree.renamedAll s v ((itemsOf ps).map Item.tree)
  | [], _ => rfl
  | p :: ps, ⟨hp, hps⟩ => by
    rw [renamedPhrases, itemsOf, List.map_cons, p.tree_renamed h hp, trees_renamed h hps, itemsOf, List.map_cons,
      Tree.renamedAll]

end

/-! ### Statements -/

mutual

/-- A statement with other names. -/
def Statement.renamed (s v : String → String) : Statement → Statement
  | .run p => .run (p.renamed s v)
  | .record p => .record (p.renamed s v)
  | .declare name value => .declare (v name) (value.renamed s v)
  | .assign target value => .assign (target.renamed s v) (value.renamed s v)
  | .note text => .note text
  | .block body => .block (renamedStatements s v body)
  | .declareFunction name body => .declareFunction (v name) (renamedStatements s v body)
  | .assignFunction target body => .assignFunction (target.renamed s v) (renamedStatements s v body)
  | .forEach index item items body =>
    .forEach (v index) (v item) (items.renamed s v) (renamedStatements s v body)

/-- Statements with other names. -/
def renamedStatements (s v : String → String) : List Statement → List Statement
  | [] => []
  | st :: ss => st.renamed s v :: renamedStatements s v ss

end

mutual

theorem Statement.ok_renamed (h : Renames s v) : ∀ {st : Statement}, st.Ok → (st.renamed s v).Ok
  | .run p, ⟨haccess, hlet, hp⟩ =>
    ⟨(isAccess_renamed p).trans haccess, indexesLet_renamed h hp hlet, p.ok_renamed h hp⟩
  | .record p, ⟨haccess, hlet, hp⟩ =>
    ⟨(isAccess_renamed p).trans haccess, indexesLet_renamed h hp hlet, p.ok_renamed h hp⟩
  | .declare _ value, ⟨hname, hvalue⟩ =>
    ⟨h.identifiers _ hname, value.ok_renamed h hvalue⟩
  | .assign target value, ⟨htarget, hlet, hok, hvalue⟩ =>
    ⟨(isTarget_renamed target).trans htarget, indexesLet_renamed h hok hlet, target.ok_renamed h hok,
      value.ok_renamed h hvalue⟩
  | .note _, htext => htext
  | .block _, hbody => statementsOk_renamed h hbody
  | .declareFunction _ _, ⟨hname, hbody⟩ =>
    ⟨h.identifiers _ hname, statementsOk_renamed h hbody⟩
  | .assignFunction target _, ⟨htarget, hlet, hok, hbody⟩ =>
    ⟨(isTarget_renamed target).trans htarget, indexesLet_renamed h hok hlet, target.ok_renamed h hok,
      statementsOk_renamed h hbody⟩
  | .forEach _ _ items _, ⟨hindex, hitem, haccess, hitems, hbody⟩ =>
    ⟨h.identifiers _ hindex, h.identifiers _ hitem,
      (isAccess_renamed items).trans haccess, items.ok_renamed h hitems, statementsOk_renamed h hbody⟩

theorem statementsOk_renamed (h : Renames s v) : ∀ {ss : List Statement}, StatementsOk ss →
    StatementsOk (renamedStatements s v ss)
  | [], _ => trivial
  | st :: _, ⟨hst, hss⟩ => ⟨st.ok_renamed h hst, statementsOk_renamed h hss⟩

end

theorem renamedAll_append (ts ts' : List Script.Tree) :
    Tree.renamedAll s v (ts ++ ts') = Tree.renamedAll s v ts ++ Tree.renamedAll s v ts' := by
  simp only [Tree.renamedAll_eq_map, List.map_append]

mutual

/-- A statement with other names is its tree with other names. -/
theorem Statement.trees_renamed (h : Renames s v) : ∀ {st : Statement}, st.Ok →
    (st.renamed s v).items.map Item.tree = Tree.renamedAll s v (st.items.map Item.tree)
  | .run p, ⟨_, _, hp⟩ => by
    simp [Statement.renamed, Statement.items, expressionItem, p.tree_renamed h hp, Tree.renamedAll, Tree.renamed,
      branch, Label.renamed]
  | .record p, ⟨_, _, hp⟩ => by
    simp [Statement.renamed, Statement.items, expressionItem, p.tree_renamed h hp, Tree.renamedAll, Tree.renamed,
      branch, Label.renamed]
  | .declare name value, ⟨_, hvalue⟩ => by
    simp [Statement.renamed, Statement.items, declareItem, declaratorTree, value.tree_renamed h hvalue,
      Tree.renamedAll, Tree.renamed, branch, Label.renamed]
  | .assign target value, ⟨_, _, hok, hvalue⟩ => by
    simp [Statement.renamed, Statement.items, assignItem, target.tree_renamed h hok, value.tree_renamed h hvalue,
      Tree.renamedAll, Tree.renamed, branch, Label.renamed]
  | .note _, _ => rfl
  | .block body, hbody => by
    simp [Statement.renamed, Statement.items, blockItem, statementTrees_renamed h hbody, Tree.renamedAll,
      Tree.renamed, branch, Label.renamed]
  | .declareFunction name body, ⟨_, hbody⟩ => by
    simp [Statement.renamed, Statement.items, declareItem, declaratorTree, functionItem,
      statementTrees_renamed h hbody, Tree.renamedAll, Tree.renamed, branch, Label.renamed]
  | .assignFunction target body, ⟨_, _, hok, hbody⟩ => by
    simp [Statement.renamed, Statement.items, assignItem, functionItem, target.tree_renamed h hok,
      statementTrees_renamed h hbody, Tree.renamedAll, Tree.renamed, branch, Label.renamed]
  | .forEach index item items body, ⟨hindex, _, _, hitems, hbody⟩ => by
    have hold : segments index = [index] := segments_of_isName (isName_of_isIdentifier hindex)
    have hnew : segments (v index) = [v index] :=
      segments_of_isName (isName_of_isIdentifier (h.identifiers _ hindex))
    simp [Statement.renamed, Statement.items, loopItem, blockItem, declareItem, declaratorTree, numberItem,
      Phrase.item, pathItem, memberTree, hold, hnew, items.tree_renamed h hitems, statementTrees_renamed h hbody, Tree.renamedAll,
      Tree.renamed, branch, Label.renamed, h.length]

theorem statementTrees_renamed (h : Renames s v) : ∀ {ss : List Statement}, StatementsOk ss →
    (itemsOfAll (renamedStatements s v ss)).map Item.tree =
      Tree.renamedAll s v ((itemsOfAll ss).map Item.tree)
  | [], _ => rfl
  | st :: ss, ⟨hst, hss⟩ => by
    rw [renamedStatements, itemsOfAll, List.map_append, st.trees_renamed h hst, statementTrees_renamed h hss,
      itemsOfAll, List.map_append, renamedAll_append]

end

/-! ### Programs -/

theorem renamed_place (h : Renames s v) (document : String) : (place document).renamed s v = place document := by
  rw [place, Phrase.renamed, renamed_name (by decide), h.window, Phrase.renamed]

theorem placed_renamed (h : Renames s v) {ss : List Statement} (hplaced : Placed ss) :
    Placed (renamedStatements s v ss) := by
  induction ss with
  | nil => exact hplaced
  | cons st ss ih =>
    intro x hx
    rcases List.mem_cons.1 hx with rfl | hx
    · obtain ⟨document, body, rfl⟩ := hplaced st (List.mem_cons_self ..)
      exact ⟨document, _, by rw [Statement.renamed, renamed_place h]⟩
    · exact ih (fun y hy => hplaced y (List.mem_cons_of_mem _ hy)) x hx

/-- What a renamer writes is read as the program with the other names. -/
theorem read?_renamed (h : Renames s v) {ss : List Statement} (hss : StatementsOk ss) (hplaced : Placed ss) :
    ∃ t, read? (programText (renamedStatements s v ss)) = some t ∧ t.bare = (programTree ss).renamed s v := by
  obtain ⟨t, ht, hbare⟩ := read?_programText (statementsOk_renamed h hss) (placed_renamed h hplaced)
  refine ⟨t, ht, ?_⟩
  rw [hbare, programTree, statementTrees_renamed h hss]
  rfl

end Relabel.Fragment
