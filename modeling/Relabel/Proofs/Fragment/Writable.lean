import Relabel.Proofs.Fragment.Answers

/-!
# Emitted programs are well-formed

A usage is writable if its names, literals and types are those of a script (`Usage.Writable`). Nothing is
asked of how a loop variable relates to the recording object: what is emitted may not record what it
should, but it is a program. Usages that are writable and take their values from each other
(`Usage.Linked`) are emitted as well-formed statements, and so is a document (`ok_program`).
-/

namespace Relabel
open Fragment (isIdentifier literal? InComment Phrase)
variable {path base : String} {q : Qualifier} {u : Usage} {us : List Usage}

/-- A path reads as an expression, and so does the loop variable that it is qualified by. -/
structure Qualifier.Writes (path : String) (q : Qualifier) : Prop where
  path : (q.phrase path).Ok
  base : ∀ base ∈ q.base?, isIdentifier base = true

/-- The names of a usage are those of a script. -/
def Usage.Writable : Usage → Prop
  | .path _ name q _ => q.Writes name
  | .call _ name q _ => q.Writes name
  | .literal text => (literal? text).isSome = true
  | .loop _ _ frame _ _ => ∀ role, isIdentifier (frame.variable role).name = true
  | .attributeName _ _ type property => InComment type ∧ IsPath property
  | .listener _ method q => q.Writes method
  | .dataFlow _ _ type property _ _ => InComment type ∧ IsPath property
  | .callback .. => True

/-- Everything among some usages is writable. -/
def AllWritable (us : List Usage) : Prop :=
  ∀ fs u, Within us fs u → u.Writable

theorem AllWritable.self (h : AllWritable us) (hu : u ∈ us) : u.Writable :=
  h [] u (.here hu)

theorem AllWritable.of_mem (h : AllWritable us) (hu : u ∈ us) : AllWritable [u] :=
  fun fs v hv => h fs v (Usage.within_iff.2 ⟨u, hu, hv⟩)

/-- A template whose usages are writable and linked. -/
structure TemplateUsages.Writable (t : TemplateUsages) : Prop where
  typeName : InComment t.typeName
  linked : ∀ u ∈ t.usages, u.Linked t.usages
  usages : AllWritable t.usages

namespace Fragment
open Script
variable {t : Target} {ss ss' : List Statement} {p target : Phrase} {name : String} {span : Span}
  {recorder : Recorder} {args : List Phrase} {type property : String}

/-! ### References -/

theorem ok_variable (h : isIdentifier name = true) : (Phrase.name name).Ok :=
  ⟨name, [], segments_of_isName (isName_of_isIdentifier h), h, by simp⟩

theorem ok_function (hobject : (Phrase.name t.object).Ok) (hname : isName name = true)
    (hargs : ∀ a ∈ args, a.Ok) : (Phrase.call (t.function name) args).Ok := by
  refine ⟨rfl, ⟨rfl, hobject, ?_⟩, allOk_of_forall hargs⟩
  rw [segments_of_isName hname]
  simpa using hname

theorem ok_record (hobject : (Phrase.name t.object).Ok) (hargs : ∀ a ∈ args, a.Ok) :
    (t.record recorder span args).Ok := by
  have hname : isName recorder.name = true :=
    isName_of_mem_functionNames (name_mem_functionNames t.object recorder)
  refine ⟨rfl, rfl, ok_function hobject hname fun a ha => ?_⟩
  simp only [List.cons_append, List.nil_append, List.mem_cons] at ha
  rcases ha with rfl | rfl | rfl | ha
  · trivial
  · trivial
  · trivial
  · exact hargs a ha

theorem ok_based (hq : q.Writes path) (hbase : base ∈ q.base?) :
    ∀ a ∈ [q.phrase path, .name base, .quoted base], a.Ok := by
  intro a ha
  simp only [List.mem_cons, List.not_mem_nil, or_false] at ha
  rcases ha with rfl | rfl | rfl
  · exact hq.path
  · exact ok_variable (hq.base base hbase)
  · trivial

theorem ok_referenceArgs (hq : q.Writes path) (hargs : referenceArgs? q path = some args) :
    ∀ a ∈ args, a.Ok := by
  have halone : ∀ a ∈ [q.phrase path], a.Ok := by simpa using hq.path
  unfold referenceArgs? at hargs
  split at hargs
  · split at hargs <;> cases hargs
    exact halone
  · split at hargs
    · cases hargs
      exact halone
    · dsimp only at hargs
      split at hargs <;> cases hargs
      exact ok_based hq rfl
  · dsimp only at hargs
    split at hargs <;> cases hargs
    exact ok_based hq rfl

theorem ok_referenceRecord (hobject : (Phrase.name t.object).Ok) (hq : q.Writes path) :
    StatementsOk (referenceRecord t recorder span q path) := by
  rw [referenceRecord]
  cases hargs : referenceArgs? q path with
  | none => trivial
  | some args => exact ⟨ok_record hobject (ok_referenceArgs hq hargs), trivial⟩

theorem ok_observedRecord (hobject : (Phrase.name t.object).Ok) (hq : q.Writes path) :
    (observedRecord t span q path).Ok := by
  unfold observedRecord
  refine ok_record hobject ?_
  split
  · next base hbase => exact ok_based hq hbase
  · simpa using hq.path

theorem ok_pathRecord (hobject : (Phrase.name t.object).Ok) (hq : q.Writes path) (role : PathRole) :
    StatementsOk (pathRecord t span path q role) := by
  cases role with
  | observed => exact ⟨ok_observedRecord hobject hq, trivial⟩
  | expression =>
    cases q with
    | component renameable => exact ok_referenceRecord hobject hq
    | loop role bound depth => exact ok_referenceRecord hobject hq
    | item base =>
      rw [pathRecord]
      split
      · trivial
      · refine ⟨ok_record hobject fun a ha => ?_, trivial⟩
        simp only [List.mem_cons, List.not_mem_nil, or_false] at ha
        rcases ha with rfl | rfl | rfl
        · exact ok_function hobject (by decide) (by simpa using ok_variable (hq.base base rfl))
        · exact hq.path
        · trivial

/-! ### Elements and functions -/

theorem ok_elementBlock {tag : String} {body : Phrase → List Statement} (htype : InComment type)
    (h : StatementsOk (body (.name (elementVariable type)))) : (elementBlock tag type body).Ok := by
  have hcreate : (Phrase.call (.member (.name "document") "createElement") [.quoted tag]).Ok :=
    ok_call_member (by decide) (by decide) (by simp [Phrase.Ok])
  exact ⟨⟨isIdentifier_of_isVariable (isVariable_elementVariable type), htype, hcreate⟩, h⟩

theorem ok_elementProperty (type : String) (hproperty : IsPath property) :
    (Phrase.member (.name (elementVariable type)) property).Ok :=
  ⟨rfl, ok_variable (isIdentifier_of_isVariable (isVariable_elementVariable type)), hproperty⟩

theorem ok_callbackCall {function items : Phrase} (hobject : (Phrase.name t.object).Ok)
    (hfunction : function.Ok) (haccess : function.isAccess = true) (hitems : items.Ok)
    (hitemsAccess : items.isAccess = true) (kind : CallbackKind) : (callbackCall t kind function items).Ok := by
  have hitem (n : Nat) : (Phrase.element items (.number n)).Ok := ⟨hitemsAccess, hitems, trivial⟩
  cases kind with
  | sort =>
    refine ⟨rfl, rfl, ok_function hobject (by decide) ?_⟩
    rw [List.forall_mem_singleton]
    exact ⟨haccess, hfunction, hitem 0, hitem 1, trivial⟩
  | filter =>
    refine ⟨rfl, rfl, ok_function hobject (by decide) ?_⟩
    rw [List.forall_mem_singleton]
    exact ⟨haccess, hfunction, hitem 0, trivial⟩

/-! ### Usages -/

mutual

theorem ok_phrase? : ∀ {u : Usage}, AllWritable [u] → ∀ p ∈ u.phrase?, p.Ok
  | .path .., h, p, hp => by
    obtain rfl := Option.some.inj hp
    exact (h.self (List.mem_singleton_self _)).path
  | .call span name q args, h, p, hp => by
    obtain rfl := Option.some.inj hp
    have hq := h.self (List.mem_singleton_self _)
    refine ⟨isAccess_of_isTarget (q.isTarget_phrase name), hq.path, allOk_of_forall ?_⟩
    exact ok_phrasesOf fun fs v hv => h fs v (.argument (List.mem_singleton_self _) hv)
  | .literal _, h, p, hp => by
    obtain rfl := Option.some.inj hp
    exact h.self (List.mem_singleton_self _)
  | .loop .., _, _, hp => nomatch hp
  | .attributeName .., _, _, hp => nomatch hp
  | .listener .., _, _, hp => nomatch hp
  | .dataFlow .., _, _, hp => nomatch hp
  | .callback .., _, _, hp => nomatch hp

theorem ok_phrasesOf : ∀ {us : List Usage}, AllWritable us → ∀ p ∈ Usage.phrasesOf us, p.Ok
  | [], _, p, hp => nomatch hp
  | u :: us, h, p, hp => by
    have htail : AllWritable us := fun fs v hv => by
      obtain ⟨w, hw, hwv⟩ := Usage.within_iff.1 hv
      exact h fs v (Usage.within_iff.2 ⟨w, List.mem_cons_of_mem _ hw, hwv⟩)
    rcases List.mem_append.1 hp with hp | hp
    · exact ok_phrase? (h.of_mem (List.mem_cons_self ..)) p (Option.mem_toList.1 hp)
    · exact ok_phrasesOf htail p hp

end

theorem ok_statementsOf (h : ∀ u ∈ us, StatementsOk (statements t u)) : StatementsOk (statementsOf t us) := by
  induction us with
  | nil => trivial
  | cons u us ih =>
    exact statementsOk_append (h u (List.mem_cons_self ..)) (ih fun v hv => h v (List.mem_cons_of_mem _ hv))

/-- The statements of a usage are well-formed. -/
theorem ok_statements (hobject : (Phrase.name t.object).Ok) (hlinked : u.Linked us) (hu : u ∈ us)
    (hall : ∀ v ∈ us, v.Linked us) (hus : AllWritable us) : StatementsOk (statements t u) := by
  induction hlinked with
  | path => exact ok_pathRecord hobject (hus.self hu) _
  | @call us span name q args hargs =>
    have hq := hus.self hu
    have hargsWritable : AllWritable args := fun fs v hv => hus fs v (.argument hu hv)
    have hcall : (Phrase.call (q.phrase name) (Usage.phrasesOf args)).Ok :=
      ⟨isAccess_of_isTarget (q.isTarget_phrase name), hq.path, allOk_of_forall (ok_phrasesOf hargsWritable)⟩
    refine ⟨⟨rfl, q.indexesLet_phrase name, hcall⟩, statementsOk_append (ok_referenceRecord hobject hq)
      (ok_statementsOf fun a ha => ?_)⟩
    have hargument := hargsWritable.self ha
    have hkind := hargs a ha
    cases a with
    | path span name q role => exact ok_pathRecord hobject hargument _
    | literal text => trivial
    | _ => exact hkind.elim
  | @loop us span items frame depth children hitems hvalue hchildren _ ih =>
    have hvariables := hus.self hu
    have hchildrenWritable : AllWritable children := fun fs v hv => hus _ v (.inside hu hv)
    have hitemsWritable : AllWritable [items] := fun fs v hv => hus fs v (.items hu hv)
    obtain ⟨list, hlist⟩ := Option.isSome_iff_exists.1 hvalue
    rw [statements, hlist]
    exact ⟨⟨hvariables .index, hvariables .item, isAccess_of_linked hitems hlist,
      ok_phrase? hitemsWritable list hlist,
      ok_statementsOf fun c hc => ih c hc hc hchildren hchildrenWritable⟩, trivial⟩
  | @attributeName us span tag type property =>
    obtain ⟨htype, hproperty⟩ := hus.self hu
    refine ⟨ok_elementBlock htype ⟨ok_record hobject fun a ha => ?_, trivial⟩, trivial⟩
    simp only [List.mem_cons, List.not_mem_nil, or_false] at ha
    rcases ha with rfl | rfl
    · exact ok_variable (isIdentifier_of_isVariable (isVariable_elementVariable _))
    · exact ok_elementProperty type hproperty
  | @listener us span method q =>
    have hq := hus.self hu
    have hevent : (Phrase.create "CustomEvent" [.quoted "event"]).Ok := ⟨by decide, trivial, trivial⟩
    exact ⟨⟨rfl, q.indexesLet_phrase method, isAccess_of_isTarget (q.isTarget_phrase method), hq.path,
      hevent, trivial⟩,
      ok_referenceRecord hobject hq⟩
  | @dataFlow us _ _ type property source twoWay primary hprimary hsource htwoWay =>
    obtain ⟨htype, hproperty⟩ := hus.self hu
    have hvalue := ok_phrase? (hus.of_mem hprimary) source hsource
    have htarget := ok_elementProperty type hproperty
    refine ⟨ok_elementBlock htype ⟨⟨rfl, rfl, htarget, hvalue⟩, ?_⟩, trivial⟩
    -- what flows back is assigned to a path
    cases twoWay with
    | false => trivial
    | true =>
      have hassignable := htwoWay rfl
      exact ⟨⟨isTarget_phrase? hassignable hsource, indexesLet_phrase? hassignable hsource, hvalue, htarget⟩,
        trivial⟩
  | @callback us kind _ _ f items function list _ _ _ hfunction hf hloop hlist =>
    have hlistWritable : AllWritable [list] := fun fs v hv => hus fs v (.items hloop hv)
    have hlistLinked : list.Linked [] := by
      cases hall _ hloop with
      | loop hitems _ _ => exact hitems
    exact ⟨ok_callbackCall hobject (ok_phrase? (hus.of_mem hfunction) f hf)
      (isAccess_of_linked (hall function hfunction) hf) (ok_phrase? hlistWritable items hlist)
      (isAccess_of_linked hlistLinked hlist) kind, trivial⟩

/-! ### Programs -/

theorem ok_templateStatements {template : TemplateUsages} (hobject : (Phrase.name t.object).Ok)
    (h : template.Writable) : StatementsOk (templateStatements t template) := by
  rw [templateStatements]
  split
  · trivial
  · have husages : StatementsOk (statementsOf t template.usages) := ok_statementsOf fun u hu =>
      ok_statements hobject (h.linked u hu) hu h.linked h.usages
    have hfunction : (Phrase.name "renameFn").Ok := ok_variable (by decide)
    have howner : (Phrase.call (t.function "createElement") [.quoted template.owner]).Ok :=
      ok_function hobject (by decide) (by simp [Phrase.Ok])
    have hsink : (Phrase.call (t.function "sink") [.name "renameFn"]).Ok :=
      ok_function hobject (by decide) (by simpa using hfunction)
    have hcall : (Phrase.call (.member (.name "renameFn") "call") [.typed template.typeName
        (.call (t.function "createElement") [.quoted template.owner])]).Ok := by
      refine ok_call_member (by decide) (by decide) ?_
      rw [List.forall_mem_singleton]
      exact ⟨h.typeName, howner⟩
    exact ⟨⟨inComment_owner h.typeName, ⟨by decide, husages⟩, ⟨rfl, rfl, hsink⟩, ⟨rfl, rfl, hcall⟩, trivial⟩, trivial⟩

theorem ok_templates {templates : List TemplateUsages} (hobject : (Phrase.name t.object).Ok)
    (h : ∀ template ∈ templates, template.Writable) :
    StatementsOk (templates.flatMap (templateStatements t)) := by
  induction templates with
  | nil => trivial
  | cons template templates ih =>
    exact statementsOk_append (ok_templateStatements hobject (h template (List.mem_cons_self ..)))
      (ih fun x hx => h x (List.mem_cons_of_mem _ hx))

theorem ok_program_of_ok {object : String} {d : DocumentUsages} (hobject : (Phrase.name object).Ok)
    (h : ∀ template ∈ d.templates, template.Writable) : StatementsOk (program object d).toList := by
  have htemplates : StatementsOk (d.templates.flatMap (templateStatements ⟨object, d.document⟩)) :=
    ok_templates hobject h
  rw [program]
  split
  · trivial
  · exact ⟨⟨rfl, rfl, ok_place _, htemplates⟩, trivial⟩

theorem ok_program {object : String} {d : DocumentUsages} (hobject : isIdentifier object = true)
    (h : ∀ template ∈ d.templates, template.Writable) : StatementsOk (program object d).toList :=
  ok_program_of_ok (ok_variable hobject) h

end Fragment

end Relabel
