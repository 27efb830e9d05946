import Relabel.Fragment.Emission
import Relabel.Proofs.Decimal.Whole
import Relabel.Proofs.Recovery.Records

/-!
# References

The references that a fragment records, and the name that each has once properties are renamed by
`s` and variables by `v`. Every recording call that is emitted for a reference says this name, also
after it was renamed (`Answers`): one lemma for each shape of the arguments.
-/

namespace Relabel
open Fragment (segments isName isVariable branch memberTree)
open Script

/-- A reference that a fragment records. -/
inductive Reference where
  /-- A path, a method or a listener. -/
  | named (span : Span) (qualifier : Qualifier) (path : String)
  /-- An entry of an `observe` list, behind the item that it is a property of. -/
  | observed (span : Span) (qualifier : Qualifier) (path : String)
  /-- An attribute that is named like a property. -/
  | attributeName (span : Span) (property : String)

/-- Whether any part of a path may be renamed. -/
def Qualifier.isRenameable (path : String) : Qualifier → Bool
  | .component renameable => renameable
  | .loop _ bound _ => bound.renameable || path != bound.name
  | .item base => path != base

/-- The parts of a path after renaming: a loop variable has the new name only if it may be renamed
itself. -/
def Qualifier.renamedParts (s v : String → String) (path : String) : Qualifier → List String
  | .component _ => (segments path).map s
  | .loop _ bound _ =>
    (if bound.renameable then v bound.name else bound.name) :: (segments path).tail.map s
  | .item base => base :: (segments path).tail.map s

namespace Reference

/-- The bytes that a reference stands on. -/
def span : Reference → Span
  | named span _ _ => span
  | observed span _ _ => span
  | attributeName span _ => span

/-- The name that a reference has after properties are renamed by `s` and variables by `v`. -/
def name (s v : String → String) : Reference → String
  | named _ q path => RecordingCall.dotted (q.renamedParts s v path)
  | observed _ q path =>
    RecordingCall.dotted
      (if q.base?.isSome then (segments path).tail.map s else (segments path).map s)
  | attributeName _ property => Text.hyphenate (RecordingCall.dotted ((segments property).map s))

/-- What a reference asks for after renaming. -/
def outcome (document : String) (s v : String → String) (r : Reference) : Renaming :=
  ⟨document, r.span, r.name s v⟩

end Reference

mutual

/-- The references of a usage that are recorded, in order. -/
def Usage.references : Usage → List Reference
  | .path span p q .expression => if q.isRenameable p then [.named span q p] else []
  | .path span p q .observed => [.observed span q p]
  | .call span name q args =>
    (if q.isRenameable name then [.named span q name] else []) ++ Usage.referencesOf args
  | .literal _ => []
  | .loop _ _ _ _ children => Usage.referencesOf children
  | .attributeName span _ _ property => [.attributeName span property]
  | .listener span method q => if q.isRenameable method then [.named span q method] else []
  | .dataFlow .. => []
  | .callback .. => []

/-- The references of some usages that are recorded, in order. -/
def Usage.referencesOf : List Usage → List Reference
  | [] => []
  | u :: us => u.references ++ Usage.referencesOf us

end

/-- The references of a document that are recorded, in order. -/
def DocumentUsages.references (d : DocumentUsages) : List Reference :=
  d.templates.flatMap fun template => Usage.referencesOf template.usages

/-- A path starts with the loop variable that it is qualified by. -/
def Qualifier.Fits (path : String) (q : Qualifier) : Prop :=
  ∀ base ∈ q.base?, Text.leadingSegment path = base

/-- A loop variable that a path is qualified by is an identifier and not the recording object. -/
def Qualifier.Plain (object : String) (q : Qualifier) : Prop :=
  ∀ base ∈ q.base?, isVariable base = true ∧ base ≠ object

/-- A dotted list of identifiers. -/
def IsPath (path : String) : Prop :=
  ∀ n ∈ segments path, isName n = true

instance (path : String) : Decidable (IsPath path) :=
  inferInstanceAs (Decidable (∀ n ∈ segments path, isName n = true))

/-! ### Trees of paths -/

variable {object document path base : String} {s v : String → String} {q : Qualifier} {t : Tree}

theorem splitOn_eq_cons (cs : List Char) :
    ∃ parts, cs.splitOn '.' = cs.takeWhile (· != '.') :: parts := by
  induction cs with
  | nil => exact ⟨[], rfl⟩
  | cons c cs ih =>
    obtain ⟨parts, hparts⟩ := ih
    rw [List.splitOn] at hparts ⊢
    rw [List.splitOnP_cons_eq_if_modifyHead]
    by_cases hc : c = '.'
    · subst hc
      exact ⟨_, rfl⟩
    · refine ⟨parts, ?_⟩
      simp [hc, hparts]

theorem segments_eq_cons (path : String) :
    segments path = Text.leadingSegment path :: (segments path).tail := by
  obtain ⟨parts, hparts⟩ := splitOn_eq_cons path.toList
  rw [segments, hparts]
  rfl

theorem renamed_memberTree (t : Tree) (ns : List String) :
    (memberTree t ns).renamed s v = memberTree (t.renamed s v) (ns.map s) := by
  induction ns generalizing t with
  | nil => rfl
  | cons n ns ih => rw [memberTree, ih, List.map_cons, memberTree]; rfl

theorem path?_memberTree (t : Tree) (ns : List String) :
    RecordingCall.path? (memberTree t ns) = (RecordingCall.path? t).map (· ++ ns) := by
  induction ns generalizing t with
  | nil => simp [memberTree]
  | cons n ns ih =>
    rw [memberTree, ih, branch, RecordingCall.path?, Option.map_map]
    congr 1
    funext ps
    simp

/-- The parts that a renamed path is read as: those of the component come behind `this`, those of a
loop variable behind the new name of the variable. -/
def Qualifier.readParts (s v : String → String) (path : String) (q : Qualifier) : List String :=
  match q.base? with
  | none => "this" :: (segments path).map s
  | some base => v base :: (segments path).tail.map s

theorem path?_pathItem (hbase : Text.leadingSegment path = base) :
    RecordingCall.path? ((Fragment.pathItem (segments path)).tree.renamed s v) =
      some (v base :: (segments path).tail.map s) := by
  rw [segments_eq_cons, hbase, Fragment.pathItem, renamed_memberTree, path?_memberTree]
  rfl

theorem path?_phrase (hfits : q.Fits path) :
    RecordingCall.path? ((q.phrase path).item.tree.renamed s v) = some (q.readParts s v path) := by
  cases q with
  | component renameable =>
    rw [Qualifier.phrase, Fragment.Phrase.item, Fragment.thisItem, renamed_memberTree, path?_memberTree]
    rfl
  | loop role bound depth => exact path?_pathItem (hfits bound.name rfl)
  | item base => exact path?_pathItem (hfits base rfl)

/-! ### Recording calls -/

open Fragment

theorem item_function {t : Target} {name : String} (hobject : isVariable t.object = true)
    (hname : isName name = true) :
    (t.function name).item.tree =
      branch (.member name false) [branch (.identifier t.object) []] := by
  rw [Target.function, Phrase.item, Phrase.item, segments_of_isName hname,
    segments_of_isName (isName_of_isVariable hobject)]
  rfl

theorem isName_of_mem_functionNames {name : String} (h : name ∈ functionNames object) :
    isName name = true := by
  have hall : ∀ name ∈ Recorder.all.map Recorder.name ++ helperNames ++ ["call"],
      isName name = true := by decide
  refine hall name ?_
  rw [functionNames] at h
  split at h
  · exact h
  · exact List.mem_append_left _ (by rwa [List.append_nil] at h)

theorem itemsOf_eq_map (ps : List Phrase) : itemsOf ps = ps.map Phrase.item := by
  induction ps with
  | nil => rfl
  | cons p ps ih => rw [itemsOf, ih, List.map_cons]

/-- A call of a function of the object, after renaming. -/
theorem renamed_function {t : Target} {name : String} (ps : List Phrase)
    (hs : KeepsFunctions t.object s) (hv : KeepsObject t.object v) (hobject : isVariable t.object = true)
    (hname : name ∈ functionNames t.object) :
    (Phrase.call (t.function name) ps).item.tree.renamed s v =
      branch (.call false) (branch (.member name false) [branch (.identifier t.object) []] ::
        ps.map fun p => p.item.tree.renamed s v) := by
  rw [Phrase.item, item_function hobject (isName_of_mem_functionNames hname), itemsOf_eq_map]
  simp only [branch, Tree.renamed, Tree.renamedAll, Label.renamed, hs name hname, hv.fixed,
    Tree.renamedAll_eq_map, List.map_map]
  rfl

/-- The phrase of a recording call. -/
def Fragment.Target.recording (t : Target) (recorder : Recorder) (span : Span) (args : List Phrase) : Phrase :=
  .call (t.function recorder.name) ([.quoted t.document, .number span.start, .number span.stop] ++ args)

theorem name_mem_functionNames (object : String) (recorder : Recorder) :
    recorder.name ∈ functionNames object :=
  List.mem_append_left _ (List.mem_append_left _ (by cases recorder <;> decide))

theorem helperName_mem_functionNames {object name : String} (h : name ∈ helperNames) :
    name ∈ functionNames object :=
  List.mem_append_left _ (List.mem_append_right _ h)

theorem offsetAt_number {args : List Tree} {i n : Nat} {which : String} {span : Span}
    (hn : n < UInt32.size) (h : args[i]? = some (.node (.number (Script.wholeDouble n)) span [])) :
    RecordingCall.offsetAt args i which = .ok n := by
  have hvalue : (Script.wholeDouble n).toNat? = some n := by
    rw [Script.wholeDouble_eq (Nat.lt_trans hn (by decide))]
    exact Decimal.Double.toNat?_ofNat (Nat.lt_trans hn (by decide))
  rw [RecordingCall.offsetAt, h]
  simp only [hvalue, if_pos hn]

/-- The arguments of a recording call, after renaming. -/
def renamedArgs (s v : String → String) (document : String) (span : Span) (args : List Phrase) :
    List Tree :=
  branch (.string document) [] :: branch (.number (Script.wholeDouble span.start)) [] ::
    branch (.number (Script.wholeDouble span.stop)) [] :: args.map fun p => p.item.tree.renamed s v

theorem location_renamedArgs {span : Span} {args : List Phrase} (hspan : span.IsShort) :
    RecordingCall.location (renamedArgs s v document span args) = .ok (document, span) := by
  have hstart := @offsetAt_number (renamedArgs s v document span args) 1 _ "start" _ hspan.1 rfl
  have hstop := @offsetAt_number (renamedArgs s v document span args) 2 _ "end" _ hspan.2 rfl
  rw [RecordingCall.location, hstart, hstop]
  rfl

/-- A recording call says what its arguments settle. -/
theorem says_recording {t : Target} {recorder : Recorder} {span : Span} {args : List Phrase}
    {name : String} (hs : KeepsFunctions t.object s) (hv : KeepsObject t.object v)
    (hobject : isVariable t.object = true) (hspan : span.IsShort)
    (h : (⟨recorder, t.document, span, renamedArgs s v t.document span args⟩ :
      RecordingCall).settledName = .ok name) :
    Says t.object ((t.recording recorder span args).item.tree.renamed s v) ⟨t.document, span, name⟩ := by
  rw [says_iff, Target.recording, renamed_function _ hs hv hobject (name_mem_functionNames t.object recorder)]
  refine ⟨recorder.name, recorder, span, ?_, Recorder.ofName?_name recorder, ?_, ?_⟩
  · simp [called?, property?, branch, Tree.label, Tree.children]
  · exact location_renamedArgs hspan
  · have hsettled : (⟨recorder, t.document, span, renamedArgs s v t.document span args⟩ :
        RecordingCall).settled = .ok ⟨t.document, span, name⟩ := by
      rw [RecordingCall.settled, h]
      rfl
    exact hsettled

/-! ### What the arguments settle -/

variable {recorder : Recorder} {span : Span} {args : List Phrase}

theorem identifierAt?_name {trees : List Tree} {i : Nat} (hbase : isVariable base = true)
    (h : trees[i]? = some ((Phrase.name base).item.tree.renamed s v)) :
    RecordingCall.identifierAt? trees i = some (v base) := by
  rw [RecordingCall.identifierAt?, h, Phrase.item, segments_of_isName (isName_of_isVariable hbase)]
  rfl

/-- A reference without base is what it reads as, less the component. -/
theorem basedName_alone (keepsBase : Bool) (hfits : q.Fits path) :
    (⟨recorder, document, span, renamedArgs s v document span [q.phrase path]⟩ :
      RecordingCall).basedName keepsBase =
        .ok (RecordingCall.dotted (RecordingCall.withoutThis (q.readParts s v path))) := by
  have hreference : (⟨recorder, document, span, renamedArgs s v document span [q.phrase path]⟩ :
      RecordingCall).reference 3 = .ok (q.readParts s v path) := by
    rw [RecordingCall.reference]
    simp only [renamedArgs, List.map_cons, List.map_nil, List.getElem?_cons_succ,
      List.getElem?_cons_zero, Option.bind_eq_bind, Option.bind_some, path?_phrase hfits]
  rw [RecordingCall.basedName, hreference]
  rfl

/-- A reference with its base is what follows the base, and the text of the base comes before it if
it is kept. -/
theorem basedName_based (keepsBase : Bool) (hfits : q.Fits path) (hbase : q.base? = some base)
    (hvariable : isVariable base = true) :
    (⟨recorder, document, span,
      renamedArgs s v document span [q.phrase path, .name base, .quoted base]⟩ :
      RecordingCall).basedName keepsBase =
        .ok (RecordingCall.dotted (if keepsBase then base :: (segments path).tail.map s
          else (segments path).tail.map s)) := by
  have hreference : (⟨recorder, document, span,
      renamedArgs s v document span [q.phrase path, .name base, .quoted base]⟩ :
      RecordingCall).reference 3 = .ok (v base :: (segments path).tail.map s) := by
    rw [RecordingCall.reference]
    simp only [renamedArgs, List.map_cons, List.map_nil, List.getElem?_cons_succ,
      List.getElem?_cons_zero, Option.bind_eq_bind, Option.bind_some, path?_phrase hfits,
      Qualifier.readParts, hbase]
  have hidentifier := @identifierAt?_name base s v
    (renamedArgs s v document span [q.phrase path, .name base, .quoted base]) 4 hvariable rfl
  rw [RecordingCall.basedName, hreference]
  simp only [bind, Except.bind, hidentifier]
  rw [show RecordingCall.stringAt? (renamedArgs s v document span
    [q.phrase path, .name base, .quoted base]) 5 = some base from rfl]
  simp [RecordingCall.afterBase, pure, Except.pure]

theorem withoutThis_component (s : String → String) (path : String) :
    RecordingCall.withoutThis ("this" :: (segments path).map s) = (segments path).map s := by
  rw [segments_eq_cons]
  rfl

theorem withoutThis_variable {parts : List String} (hbase : base ≠ "this") :
    RecordingCall.withoutThis (base :: parts) = base :: parts := by
  rw [RecordingCall.withoutThis.eq_def]
  split
  · next part rest h =>
    injection h with hthis
    exact absurd hthis hbase
  · rfl

theorem KeepsObject.ne_this (hv : KeepsObject object v) (hbase : isVariable base = true) :
    v base ≠ "this" := fun h => by
  rw [hv.this base h] at hbase
  exact absurd hbase (by decide)

/-- What the name of an attribute settles, for the property of an element in a variable. -/
theorem attributeName_member {holder property : String} (hholder : isVariable holder = true) :
    (⟨recorder, document, span,
      renamedArgs s v document span [.name holder, .member (.name holder) property]⟩ :
      RecordingCall).attributeName =
        .ok (Text.hyphenate (RecordingCall.dotted ((segments property).map s))) := by
  have hsegments : segments holder = [holder] := segments_of_isName (isName_of_isVariable hholder)
  have hreference : (⟨recorder, document, span,
      renamedArgs s v document span [.name holder, .member (.name holder) property]⟩ :
      RecordingCall).reference 4 = .ok (v holder :: (segments property).map s) := by
    have hpath : RecordingCall.path? ((Phrase.member (.name holder) property).item.tree.renamed s v) =
        some (v holder :: (segments property).map s) := by
      rw [Phrase.item, Phrase.item, hsegments, renamed_memberTree, path?_memberTree]
      rfl
    rw [RecordingCall.reference]
    simp only [renamedArgs, List.map_cons, List.map_nil, List.getElem?_cons_succ,
      List.getElem?_cons_zero, Option.bind_eq_bind, Option.bind_some, hpath]
  have hidentifier := @identifierAt?_name holder s v
    (renamedArgs s v document span [.name holder, .member (.name holder) property]) 3 hholder rfl
  rw [RecordingCall.attributeName, hreference, hidentifier, segments_eq_cons property]
  simp [bind, Except.bind, pure, Except.pure]

/-- What a property of an item settles. -/
theorem itemName_item {t : Target} (hs : KeepsFunctions t.object s) (hv : KeepsObject t.object v)
    (hobject : isVariable t.object = true) (hfits : q.Fits path) (hbase : q.base? = some base)
    (hvariable : isVariable base = true) :
    (⟨recorder, document, span, renamedArgs s v document span
      [.call (t.function "domRepeatItem") [.name base], q.phrase path, .quoted base]⟩ :
      RecordingCall).itemName = .ok (RecordingCall.dotted (base :: (segments path).tail.map s)) := by
  set trees := renamedArgs s v document span
    [.call (t.function "domRepeatItem") [.name base], q.phrase path, .quoted base] with htrees
  have hreference : (⟨recorder, document, span, trees⟩ : RecordingCall).reference 4 =
      .ok (v base :: (segments path).tail.map s) := by
    rw [RecordingCall.reference]
    simp only [htrees, renamedArgs, List.map_cons, List.map_nil, List.getElem?_cons_succ,
      List.getElem?_cons_zero, Option.bind_eq_bind, Option.bind_some, path?_phrase hfits,
      Qualifier.readParts, hbase]
  have hcalled : RecordingCall.calledWithAt? trees 3 = some (v base) := by
    have hitem : trees[3]? = some ((Phrase.call (t.function "domRepeatItem") [.name base]).item.tree.renamed s v) :=
      rfl
    rw [RecordingCall.calledWithAt?, hitem,
      renamed_function _ hs hv hobject (helperName_mem_functionNames (by decide))]
    exact identifierAt?_name hvariable rfl
  have hquoted : RecordingCall.stringAt? trees 5 = some base := rfl
  rw [RecordingCall.itemName, hreference]
  simp only [hcalled, hquoted, bind, Except.bind]
  simp [RecordingCall.afterBase, pure, Except.pure]

/-! ### Answers -/

/-- A recording call says the name of a reference, also after it is renamed. -/
def Answers (t : Target) (s : String → String) (p : Phrase) (r : Reference) : Prop :=
  ∀ v, KeepsObject t.object v → Says t.object (p.item.tree.renamed s v) (r.outcome t.document s v)

theorem answers_referenceArgs {t : Target} (hs : KeepsFunctions t.object s) (hobject : isVariable t.object = true)
    (hspan : span.IsShort) (hfits : q.Fits path) (hplain : q.Plain t.object)
    (hrecorder : recorder ∈ [Recorder.identifier, .method, .listener])
    (hargs : referenceArgs? q path = some args) :
    Answers t s (t.recording recorder span args) (.named span q path) := by
  intro v hv
  refine says_recording hs hv hobject hspan ?_
  have hbased : ∀ c : RecordingCall, c.recorder = recorder → c.settledName = c.basedName true := by
    intro c hc
    simp only [List.mem_cons, List.not_mem_nil, or_false] at hrecorder
    rw [RecordingCall.settledName, hc]
    rcases hrecorder with rfl | rfl | rfl <;> rfl
  rw [hbased _ rfl, Reference.name]
  cases q with
  | component renameable =>
    simp only [referenceArgs?, Option.ite_none_right_eq_some, Option.some.injEq] at hargs
    rw [← hargs.2, basedName_alone true hfits]
    simp only [Qualifier.readParts, Qualifier.base?, withoutThis_component, Qualifier.renamedParts]
  | loop role bound depth =>
    have hbound := (hplain bound.name rfl).1
    rw [referenceArgs?] at hargs
    split at hargs
    · next hrenameable =>
      injection hargs with hargs
      rw [← hargs, basedName_alone true hfits]
      simp only [Qualifier.readParts, Qualifier.base?, withoutThis_variable (hv.ne_this hbound),
        Qualifier.renamedParts, if_pos hrenameable]
    · next hrenameable =>
      simp only [Option.ite_none_left_eq_some, Option.some.injEq] at hargs
      rw [← hargs.2, basedName_based true hfits rfl hbound]
      simp only [if_true, Qualifier.renamedParts, if_neg hrenameable]
  | item base =>
    have hbase := (hplain base rfl).1
    simp only [referenceArgs?, Option.ite_none_left_eq_some, Option.some.injEq] at hargs
    rw [← hargs.2, basedName_based true hfits rfl hbase]
    simp only [if_true, Qualifier.renamedParts]

theorem answers_observed {t : Target} (hs : KeepsFunctions t.object s) (hobject : isVariable t.object = true)
    (hspan : span.IsShort) (hfits : q.Fits path) (hplain : q.Plain t.object) {p : Phrase}
    (hp : observedRecord t span q path = .record p) :
    Answers t s p (.observed span q path) := by
  intro v hv
  injection hp with hp
  subst hp
  refine says_recording hs hv hobject hspan ?_
  rw [RecordingCall.settledName]
  cases hbase : q.base? with
  | none =>
    rw [basedName_alone false hfits]
    simp only [Qualifier.readParts, hbase, withoutThis_component, Reference.name, Option.isSome_none]
    rfl
  | some base =>
    rw [basedName_based false hfits hbase (hplain base hbase).1]
    simp only [Reference.name, hbase, Option.isSome_some]
    rfl

theorem answers_item {t : Target} (hs : KeepsFunctions t.object s) (hobject : isVariable t.object = true)
    (hspan : span.IsShort) (hfits : (Qualifier.item base).Fits path) (hbase : isVariable base = true) :
    Answers t s (t.recording .itemProperty span
      [.call (t.function "domRepeatItem") [.name base], .name path, .quoted base])
      (.named span (.item base) path) := by
  intro v hv
  refine says_recording hs hv hobject hspan ?_
  rw [RecordingCall.settledName, Reference.name, Qualifier.renamedParts]
  exact itemName_item (q := .item base) hs hv hobject hfits rfl hbase

theorem answers_attributeName {t : Target} {holder property : String} (hs : KeepsFunctions t.object s)
    (hobject : isVariable t.object = true) (hspan : span.IsShort) (hholder : isVariable holder = true) :
    Answers t s (t.recording .attributeName span [.name holder, .member (.name holder) property])
      (.attributeName span property) := by
  intro v hv
  refine says_recording hs hv hobject hspan ?_
  exact attributeName_member hholder

end Relabel
