import Relabel.Proofs.Extraction.Flow
import Relabel.Proofs.Fragment.Programs
import Relabel.Proofs.Fragment.Safety

/-!
# Emitted programs answer their references

`Emits t ss rs`: the statements `ss` are read as what they say, and their recording calls say, also
after a renaming, the names of the references `rs`, one for each and in order. This holds of the
statements of every usage whose names are identifiers (`Sound`) and whose values come from usages
next to it (`Usage.Linked`), and so of the program of a document.
-/

namespace Relabel.Fragment
open Script
variable {t : Target} {ss ss' : List Statement} {rs rs' : List Reference} {p target : Phrase}
  {path name : String} {q : Qualifier} {span : Span} {recorder : Recorder} {args : List Phrase}
  {r : Reference} {u : Usage} {us : List Usage}

/-- Statements whose recording calls answer some references. -/
structure Emits (t : Target) (ss : List Statement) (rs : List Reference) : Prop where
  ok : StatementsOk ss
  tame : TameAll t.object ss
  answers : ∀ s, KeepsFunctions t.object s → List.Forall₂ (Answers t s) (recordingsOf ss) rs

namespace Emits

theorem nil : Emits t [] [] :=
  ⟨trivial, trivial, fun _ _ => .nil⟩

theorem append (h : Emits t ss rs) (h' : Emits t ss' rs') : Emits t (ss ++ ss') (rs ++ rs') := by
  refine ⟨statementsOk_append h.ok h'.ok, tameAll_append h.tame h'.tame, fun s hs => ?_⟩
  rw [recordingsOf_append]
  exact List.rel_append (h.answers s hs) (h'.answers s hs)

theorem run (hp : p.Safe t.object) (haccess : p.isAccess = true) (hlet : p.indexesLet = false) :
    Emits t [.run p] [] :=
  ⟨⟨⟨haccess, hlet, hp.ok⟩, trivial⟩, ⟨hp.tally, trivial⟩, fun _ _ => .nil⟩

theorem declare (hname : isVariable name = true) (hp : p.Safe t.object) : Emits t [.declare name p] [] :=
  ⟨⟨⟨isIdentifier_of_isVariable hname, hp.ok⟩, trivial⟩, ⟨hp.tally, trivial⟩, fun _ _ => .nil⟩

theorem assign (htarget : target.Safe t.object) (hisTarget : target.isTarget = true)
    (hlet : target.indexesLet = false) (hp : p.Safe t.object) : Emits t [.assign target p] [] :=
  ⟨⟨⟨hisTarget, hlet, htarget.ok, hp.ok⟩, trivial⟩, ⟨⟨htarget.tally, hp.tally⟩, trivial⟩, fun _ _ => .nil⟩

theorem note {text : String} (h : InComment text) : Emits t [.note text] [] :=
  ⟨⟨h, trivial⟩, ⟨trivial, trivial⟩, fun _ _ => .nil⟩

theorem block (h : Emits t ss rs) : Emits t [.block ss] rs := by
  refine ⟨⟨h.ok, trivial⟩, ⟨h.tame, trivial⟩, fun s hs => ?_⟩
  simpa [recordingsOf, Statement.recordings] using h.answers s hs

theorem declareFunction (hname : isVariable name = true) (h : Emits t ss rs) :
    Emits t [.declareFunction name ss] rs := by
  refine ⟨⟨⟨isIdentifier_of_isVariable hname, h.ok⟩, trivial⟩, ⟨h.tame, trivial⟩, fun s hs => ?_⟩
  simpa [recordingsOf, Statement.recordings] using h.answers s hs

theorem assignFunction (htarget : target.Safe t.object) (hisTarget : target.isTarget = true)
    (hlet : target.indexesLet = false) (h : Emits t ss rs) : Emits t [.assignFunction target ss] rs := by
  refine ⟨⟨⟨hisTarget, hlet, htarget.ok, h.ok⟩, trivial⟩, ⟨⟨htarget.tally, h.tame⟩, trivial⟩, fun s hs => ?_⟩
  simpa [recordingsOf, Statement.recordings] using h.answers s hs

theorem forEach {index item : String} (hindex : isVariable index = true) (hitem : isVariable item = true)
    (hp : p.Safe t.object) (haccess : p.isAccess = true) (h : Emits t ss rs) :
    Emits t [.forEach index item p ss] rs := by
  refine ⟨⟨⟨isIdentifier_of_isVariable hindex, isIdentifier_of_isVariable hitem, haccess, hp.ok, h.ok⟩,
    trivial⟩, ⟨⟨hp.tally, h.tame⟩, trivial⟩, fun s hs => ?_⟩
  simpa [recordingsOf, Statement.recordings] using h.answers s hs

theorem record (hobject : isVariable t.object = true) (hargs : ∀ a ∈ args, a.Safe t.object)
    (hanswers : ∀ s, KeepsFunctions t.object s → Answers t s (t.recording recorder span args) r) :
    Emits t [t.record recorder span args] [r] := by
  obtain ⟨hok, htally⟩ := @tally_recording args t recorder span hobject hargs
  exact ⟨⟨⟨rfl, rfl, hok⟩, trivial⟩, ⟨htally, trivial⟩, fun s hs => .cons (hanswers s hs) .nil⟩

end Emits

/-! ### References -/

theorem isSome_referenceArgs? (q : Qualifier) (path : String) :
    (referenceArgs? q path).isSome = q.isRenameable path := by
  cases q with
  | component renameable => cases renameable <;> rfl
  | loop role bound depth =>
    by_cases hbound : bound.renameable = true <;> by_cases hpath : path = bound.name <;>
      simp [referenceArgs?, Qualifier.isRenameable, hbound, hpath]
  | item base =>
    by_cases hpath : path = base <;> simp [referenceArgs?, Qualifier.isRenameable, hpath]

/-- A reference and what follows it. -/
theorem safe_base {base : String} (hq : q.Suits t.object path) (hbase : base ∈ q.base?) :
    ∀ a ∈ [q.phrase path, .name base, .quoted base], a.Safe t.object := by
  intro a ha
  simp only [List.mem_cons, List.not_mem_nil, or_false] at ha
  rcases ha with rfl | rfl | rfl
  · exact hq.safe
  · exact safe_variable (hq.plain base hbase).1
  · exact safe_quoted base

theorem safe_referenceArgs (hq : q.Suits t.object path) (hargs : referenceArgs? q path = some args) :
    ∀ a ∈ args, a.Safe t.object := by
  have halone : ∀ a ∈ [q.phrase path], a.Safe t.object := by simpa using hq.safe
  cases q with
  | component renameable =>
    simp only [referenceArgs?, Option.ite_none_right_eq_some, Option.some.injEq] at hargs
    rw [← hargs.2]
    exact halone
  | loop role bound depth =>
    rw [referenceArgs?] at hargs
    split at hargs
    · obtain rfl := Option.some.inj hargs
      exact halone
    · simp only [Option.ite_none_left_eq_some, Option.some.injEq] at hargs
      rw [← hargs.2]
      exact safe_base hq rfl
  | item base =>
    simp only [referenceArgs?, Option.ite_none_left_eq_some, Option.some.injEq] at hargs
    rw [← hargs.2]
    exact safe_base hq rfl

theorem emits_referenceRecord (hobject : isVariable t.object = true) (hspan : span.IsShort)
    (hq : q.Suits t.object path) (hrecorder : recorder ∈ [Recorder.identifier, .method, .listener]) :
    Emits t (referenceRecord t recorder span q path)
      (if q.isRenameable path then [.named span q path] else []) := by
  rw [referenceRecord, ← isSome_referenceArgs?]
  cases hargs : referenceArgs? q path with
  | none => exact .nil
  | some args =>
    exact .record hobject (safe_referenceArgs hq hargs) fun s hs =>
      answers_referenceArgs hs hobject hspan hq.fits hq.plain hrecorder hargs

theorem emits_observedRecord (hobject : isVariable t.object = true) (hspan : span.IsShort)
    (hq : q.Suits t.object path) : Emits t [observedRecord t span q path] [.observed span q path] := by
  have hanswers : ∀ s, KeepsFunctions t.object s → ∀ p, observedRecord t span q path = .record p →
      Answers t s p (.observed span q path) := fun s hs p hp =>
    answers_observed hs hobject hspan hq.fits hq.plain hp
  unfold observedRecord at hanswers ⊢
  refine .record hobject ?_ fun s hs => hanswers s hs _ rfl
  split
  · next base hbase => exact safe_base hq hbase
  · simpa using hq.safe

theorem emits_pathRecord (hobject : isVariable t.object = true) (hspan : span.IsShort)
    (hq : q.Suits t.object path) (role : PathRole) :
    Emits t (pathRecord t span path q role) (Usage.path span path q role).references := by
  cases role with
  | observed => exact emits_observedRecord hobject hspan hq
  | expression =>
    cases q with
    | component renameable => exact emits_referenceRecord hobject hspan hq (.head _)
    | loop role bound depth => exact emits_referenceRecord hobject hspan hq (.head _)
    | item base =>
      rw [pathRecord, Usage.references]
      have hbase := (hq.plain base rfl).1
      by_cases hpath : path = base
      · rw [if_pos hpath, Qualifier.isRenameable, if_neg (by simpa using hpath)]
        exact .nil
      · rw [if_neg hpath, Qualifier.isRenameable, if_pos (by simpa using hpath)]
        refine .record hobject (fun a ha => ?_) fun s hs =>
          answers_item hs hobject hspan hq.fits hbase
        simp only [List.mem_cons, List.not_mem_nil, or_false] at ha
        rcases ha with rfl | rfl | rfl
        · refine safe_helper hobject (by decide) fun a ha => ?_
          rw [List.mem_singleton.1 ha]
          exact safe_variable hbase
        · exact hq.safe
        · exact safe_quoted base

/-! ### Elements -/

theorem isVariable_elementVariable (type : String) : isVariable (elementVariable type) = true := by
  obtain ⟨cs, htext, hcs⟩ : ∃ cs, (elementVariable type).toList = "polymerRename_".toList ++ cs ∧
      cs.all Script.continuesName = true := by
    refine ⟨_, by rw [elementVariable, String.toList_append], ?_⟩
    rw [String.toList_ofList, List.all_map, List.all_eq_true]
    intro c _
    simp only [Function.comp_apply]
    split
    · decide
    · split
      · next h =>
        simp only [Bool.or_eq_true, beq_iff_eq] at h
        simp only [Script.continuesName, Text.isIdContinue, Text.isIdStart, Bool.or_eq_true, beq_iff_eq]
        tauto
      · decide
  have hwords : ∀ w ∈ reservedWords ++ strictWords, ¬ "polymerRename_".toList <+: w.toList := by decide
  have hnot : elementVariable type ∉ reservedWords ++ strictWords := fun hmem =>
    hwords _ hmem ⟨cs, htext.symm⟩
  rw [List.mem_append, not_or] at hnot
  have hname : isName (elementVariable type) = true := by
    rw [isName, htext, List.all_append, hcs]
    rfl
  simp [isVariable, isIdentifier, hname, hnot]

theorem emits_elementBlock {tag type : String} {body : Phrase → List Statement} (htype : InComment type)
    (h : Emits t (body (.name (elementVariable type))) rs) :
    Emits t [elementBlock tag type body] rs := by
  have hcreate : (Phrase.call (.member (.name "document") "createElement") [.quoted tag]).Safe t.object := by
    refine safe_call_member (by decide) (by decide) (fun _ => ⟨?_, by decide⟩) (by simp [safe_quoted])
    exact helperName_mem_functionNames (by decide)
  exact Emits.block ((Emits.declare (isVariable_elementVariable type)
    (safe_typed htype hcreate)).append h)

theorem safe_elementProperty {type property : String} (hproperty : IsPath property) :
    (Phrase.member (.name (elementVariable type)) property).Safe t.object :=
  safe_member (safe_variable (isVariable_elementVariable type)) rfl hproperty

theorem emits_callbackCall {function items : Phrase} (hobject : isVariable t.object = true)
    (hfunction : function.Safe t.object) (hfree : function.Free t.object)
    (haccess : function.isAccess = true) (hitems : items.Safe t.object)
    (hitemsAccess : items.isAccess = true) (kind : CallbackKind) :
    Emits t [callbackCall t kind function items] [] := by
  have hitem (n : Nat) : (Phrase.element items (.number n)).Safe t.object :=
    safe_element hitems hitemsAccess (safe_number n)
  cases kind with
  | sort =>
    refine .run (safe_helper hobject (by decide) ?_) rfl rfl
    have h : (Phrase.call function [.element items (.number 0), .element items (.number 1)]).Safe t.object :=
      safe_call hfunction hfree haccess (by simp [hitem])
    simpa using h
  | filter =>
    refine .run (safe_helper hobject (by decide) ?_) rfl rfl
    have h : (Phrase.call function [.element items (.number 0)]).Safe t.object :=
      safe_call hfunction hfree haccess (by simp [hitem])
    simpa using h

/-! ### Usages -/

/-- A usage whose names are identifiers, whose variables are not called like the recording object, and
whose literals and types can be written. -/
def Sound (object : String) : Usage → Prop
  | .path span name q _ => span.IsShort ∧ q.Suits object name
  | .call span name q _ => span.IsShort ∧ q.Suits object name
  | .literal text => (literal? text).isSome = true
  | .loop _ _ frame _ _ => isVariable frame.item.name = true ∧ isVariable frame.index.name = true
  | .attributeName span _ type property => span.IsShort ∧ InComment type ∧ IsPath property
  | .listener span method q => span.IsShort ∧ q.Suits object method
  | .dataFlow _ _ type property _ _ => InComment type ∧ IsPath property
  | .callback .. => True

/-- Everything among some usages is sound. -/
def AllSound (object : String) (us : List Usage) : Prop :=
  ∀ fs u, Within us fs u → Sound object u

mutual

theorem safe_phrase? {object : String} : ∀ {u : Usage}, AllSound object [u] → ∀ p ∈ u.phrase?, p.Safe object
  | .path .., h, p, hp => by
    obtain rfl := Option.some.inj hp
    exact (h [] _ (.here (List.mem_singleton_self _))).2.safe
  | .call span name q args, h, p, hp => by
    obtain rfl := Option.some.inj hp
    have hq := (h [] _ (.here (List.mem_singleton_self _))).2
    refine safe_call hq.safe hq.free (isAccess_of_isTarget (q.isTarget_phrase name)) ?_
    exact safe_phrasesOf fun fs v hv => h fs v (.argument (List.mem_singleton_self _) hv)
  | .literal _, h, p, hp => by
    obtain rfl := Option.some.inj hp
    exact safe_literal (h [] _ (.here (List.mem_singleton_self _)))
  | .loop .., _, _, hp => nomatch hp
  | .attributeName .., _, _, hp => nomatch hp
  | .listener .., _, _, hp => nomatch hp
  | .dataFlow .., _, _, hp => nomatch hp
  | .callback .., _, _, hp => nomatch hp

theorem safe_phrasesOf {object : String} : ∀ {us : List Usage}, AllSound object us →
    ∀ p ∈ Usage.phrasesOf us, p.Safe object
  | [], _, p, hp => nomatch hp
  | u :: us, h, p, hp => by
    have hhead : AllSound object [u] := fun fs v hv =>
      h fs v (Usage.within_iff.2 ⟨u, List.mem_cons_self .., hv⟩)
    have htail : AllSound object us := fun fs v hv => by
      obtain ⟨w, hw, hwv⟩ := Usage.within_iff.1 hv
      exact h fs v (Usage.within_iff.2 ⟨w, List.mem_cons_of_mem _ hw, hwv⟩)
    rcases List.mem_append.1 hp with hp | hp
    · exact safe_phrase? hhead p (Option.mem_toList.1 hp)
    · exact safe_phrasesOf htail p hp

end

/-- What is no literal has a value that can be called. -/
theorem isAccess_of_linked (hlinked : u.Linked us) (hp : u.phrase? = some p) : p.isAccess = true := by
  cases hlinked with
  | path =>
    obtain rfl := Option.some.inj hp
    exact isAccess_of_isTarget (Qualifier.isTarget_phrase ..)
  | call =>
    obtain rfl := Option.some.inj hp
    rfl
  | loop => cases hp
  | attributeName => cases hp
  | listener => cases hp
  | dataFlow => cases hp
  | callback => cases hp

theorem free_phrase? {object : String} (hu : AllSound object [u]) (hlinked : u.Linked us)
    (hp : u.phrase? = some p) : p.Free object := by
  cases hlinked with
  | path =>
    obtain rfl := Option.some.inj hp
    exact (hu [] _ (.here (List.mem_singleton_self _))).2.free
  | call =>
    obtain rfl := Option.some.inj hp
    rfl
  | loop => cases hp
  | attributeName => cases hp
  | listener => cases hp
  | dataFlow => cases hp
  | callback => cases hp

theorem isTarget_phrase? (hu : u.isAssignable = true) (hp : u.phrase? = some p) : p.isTarget = true := by
  cases u with
  | path span name q role =>
    obtain rfl := Option.some.inj hp
    exact q.isTarget_phrase name
  | _ => cases hu

theorem indexesLet_phrase? (hu : u.isAssignable = true) (hp : u.phrase? = some p) : p.indexesLet = false := by
  cases u with
  | path span name q role =>
    obtain rfl := Option.some.inj hp
    exact q.indexesLet_phrase name
  | _ => cases hu

theorem emits_statementsOf (h : ∀ u ∈ us, Emits t (statements t u) u.references) :
    Emits t (statementsOf t us) (Usage.referencesOf us) := by
  induction us with
  | nil => exact .nil
  | cons u us ih =>
    exact (h u (List.mem_cons_self ..)).append (ih fun v hv => h v (List.mem_cons_of_mem _ hv))

/-- The statements of a usage answer its references. -/
theorem emits_statements (hobject : isVariable t.object = true) (hlinked : u.Linked us) (hu : u ∈ us)
    (hall : ∀ v ∈ us, v.Linked us) (hsound : AllSound t.object us) : Emits t (statements t u) u.references := by
  have hone {us : List Usage} {u : Usage} (hsound : AllSound t.object us) (hu : u ∈ us) :
      AllSound t.object [u] := fun fs v hv => hsound fs v (Usage.within_iff.2 ⟨u, hu, hv⟩)
  have hself {us : List Usage} {u : Usage} (hsound : AllSound t.object us) (hu : u ∈ us) :
      Sound t.object u := hsound [] u (.here hu)
  induction hlinked with
  | path =>
    obtain ⟨hspan, hq⟩ := hself hsound hu
    exact emits_pathRecord hobject hspan hq _
  | @call us span name q args hargs =>
    obtain ⟨hspan, hq⟩ := hself hsound hu
    have hargsSound : AllSound t.object args := fun fs v hv => hsound fs v (.argument hu hv)
    have hcall : (Phrase.call (q.phrase name) (Usage.phrasesOf args)).Safe t.object :=
      safe_call hq.safe hq.free (isAccess_of_isTarget (q.isTarget_phrase name)) (safe_phrasesOf hargsSound)
    have hrecord := @emits_referenceRecord t name q span .method hobject hspan hq (by simp)
    refine ((Emits.run hcall rfl (q.indexesLet_phrase name)).append hrecord).append (emits_statementsOf fun a ha => ?_)
    have hargument := hself hargsSound ha
    have hkind := hargs a ha
    cases a with
    | path span name q role => exact emits_pathRecord hobject hargument.1 hargument.2 _
    | literal text => exact .nil
    | _ => exact hkind.elim
  | @loop us span items frame depth children hitems hvalue hchildren _ ih =>
    obtain ⟨hitem, hindex⟩ := hself hsound hu
    have hchildrenSound : AllSound t.object children := fun fs v hv => hsound _ v (.inside hu hv)
    have hitemsSound : AllSound t.object [items] := fun fs v hv => hsound fs v (.items hu hv)
    obtain ⟨list, hlist⟩ := Option.isSome_iff_exists.1 hvalue
    rw [statements, Usage.references, hlist]
    exact .forEach hindex hitem (safe_phrase? hitemsSound list hlist)
      (isAccess_of_linked hitems hlist)
      (emits_statementsOf fun c hc => ih c hc hc hchildren hchildrenSound)
  | attributeName =>
    obtain ⟨hspan, htype, hproperty⟩ := hself hsound hu
    refine emits_elementBlock htype (.record hobject (fun a ha => ?_) fun s hs => ?_)
    · simp only [List.mem_cons, List.not_mem_nil, or_false] at ha
      rcases ha with rfl | rfl
      · exact safe_variable (isVariable_elementVariable _)
      · exact safe_elementProperty hproperty
    · exact answers_attributeName hs hobject hspan (isVariable_elementVariable _)
  | @listener us span method q =>
    obtain ⟨hspan, hq⟩ := hself hsound hu
    have hevent : (Phrase.create "CustomEvent" [.quoted "event"]).Safe t.object :=
      safe_create (by decide) (by simp [safe_quoted])
    have hcall := safe_call hq.safe hq.free (isAccess_of_isTarget (q.isTarget_phrase method))
      (List.forall_mem_singleton.2 hevent)
    exact (Emits.run hcall rfl (q.indexesLet_phrase method)).append (emits_referenceRecord hobject hspan hq (by simp))
  | @dataFlow us _ _ _ _ source twoWay primary hprimary hsource htwoWay =>
    obtain ⟨htype, hproperty⟩ := hself hsound hu
    have hsafe := safe_phrase? (hone hsound hprimary) source hsource
    refine emits_elementBlock htype ?_
    refine Emits.append (.assign (safe_elementProperty hproperty) rfl rfl hsafe) ?_
    cases twoWay with
    | false => exact .nil
    | true =>
      exact .assign hsafe (isTarget_phrase? (htwoWay rfl) hsource) (indexesLet_phrase? (htwoWay rfl) hsource)
        (safe_elementProperty hproperty)
  | @callback us kind _ _ f _ function list _ _ _ hfunction hf hloop hlist =>
    have hfunctionSound := hone hsound hfunction
    have hlistSound : AllSound t.object [list] := fun fs v hv => hsound fs v (.items hloop hv)
    have hlistLinked : list.Linked [] := by
      cases hall _ hloop with
      | loop hitems _ _ => exact hitems
    have hfunctionLinked := hall function hfunction
    exact emits_callbackCall hobject (safe_phrase? hfunctionSound f hf)
      (free_phrase? hfunctionSound hfunctionLinked hf) (isAccess_of_linked hfunctionLinked hf)
      (safe_phrase? hlistSound _ hlist) (isAccess_of_linked hlistLinked hlist) kind

/-! ### Programs -/

theorem inComment_owner {type : String} (h : InComment type) :
    InComment ("@this \x7b" ++ type ++ "\x7d @suppress \x7bvisibility\x7d") := by
  have hopen : NoClose "@this \x7b".toList := noClose_of_not_mem (by decide)
  have hclose : NoClose "\x7d @suppress \x7bvisibility\x7d".toList := noClose_of_not_mem (by decide)
  have hall := (hopen.append h (.inl (by decide))).append hclose (.inr (by decide))
  intro a b hab
  simp only [String.toList_append] at hab
  exact hall a b hab

/-- A template whose usages are sound and linked. -/
structure TemplateSound (object : String) (template : TemplateUsages) : Prop where
  typeName : InComment template.typeName
  linked : ∀ u ∈ template.usages, u.Linked template.usages
  sound : AllSound object template.usages

/-- The statements of a template answer the references of its usages. -/
theorem emits_templateStatements {template : TemplateUsages} (hobject : isVariable t.object = true)
    (h : TemplateSound t.object template) :
    Emits t (templateStatements t template) (Usage.referencesOf template.usages) := by
  have husages := emits_statementsOf fun u hu =>
    emits_statements hobject (h.linked u hu) hu h.linked h.sound
  rw [templateStatements]
  split
  · next hempty =>
    rw [List.isEmpty_iff.1 hempty]
    exact .nil
  · have hfunction : (Phrase.name "renameFn").Safe t.object := safe_variable (by decide)
    have howner : (Phrase.call (t.function "createElement") [.quoted template.owner]).Safe t.object :=
      safe_helper hobject (by decide) (by simp [safe_quoted])
    have hsink : (Phrase.call (t.function "sink") [.name "renameFn"]).Safe t.object :=
      safe_helper hobject (by decide) (by simpa using hfunction)
    have hcall : (Phrase.call (.member (.name "renameFn") "call")
        [.typed template.typeName (.call (t.function "createElement") [.quoted template.owner])]).Safe
          t.object := by
      refine safe_call_member (by decide) (by decide) (fun h => ⟨?_, by decide⟩) ?_
      · rw [functionNames, if_pos h.symm]
        exact List.mem_append_right _ (List.mem_singleton_self _)
      · simpa using safe_typed h.typeName howner
    have hrenameFn : isVariable "renameFn" = true := by decide
    have hbody := ((Emits.note (inComment_owner h.typeName)).append
      (.declareFunction hrenameFn husages)).append ((Emits.run hsink rfl rfl).append (.run hcall rfl rfl))
    simp only [List.nil_append, List.append_nil] at hbody
    exact hbody.block

theorem emits_templates {templates : List TemplateUsages} (hobject : isVariable t.object = true)
    (h : ∀ template ∈ templates, TemplateSound t.object template) :
    Emits t (templates.flatMap (templateStatements t))
      (templates.flatMap fun template => Usage.referencesOf template.usages) := by
  induction templates with
  | nil => exact .nil
  | cons template templates ih =>
    exact (emits_templateStatements hobject (h template (List.mem_cons_self ..))).append
      (ih fun x hx => h x (List.mem_cons_of_mem _ hx))

/-- The program of a document, if it has one, answers the references of the document. -/
theorem emits_toList_program {object : String} {d : DocumentUsages} (hobject : isVariable object = true)
    (h : ∀ template ∈ d.templates, TemplateSound object template) :
    Emits ⟨object, d.document⟩ (program object d).toList d.references := by
  have htemplates : Emits ⟨object, d.document⟩
      (d.templates.flatMap (templateStatements ⟨object, d.document⟩)) d.references :=
    emits_templates hobject h
  have hwindow : (Phrase.name "window").Safe object := safe_variable (by decide)
  have htarget : (Phrase.element (.name "window") (.quoted (key d.document))).Safe object :=
    safe_element hwindow rfl (safe_quoted _)
  rw [program]
  split
  · next hempty => rwa [List.isEmpty_iff.1 hempty] at htemplates
  · exact .assignFunction htarget rfl rfl htemplates

theorem emits_program {object : String} {d : DocumentUsages} {p : Statement}
    (hobject : isVariable object = true) (h : ∀ template ∈ d.templates, TemplateSound object template)
    (hp : program object d = some p) : Emits ⟨object, d.document⟩ [p] d.references := by
  simpa [hp] using emits_toList_program hobject h

end Relabel.Fragment
