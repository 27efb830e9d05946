import Relabel.Proofs.Extraction.Visited

/-!
# What a template asks for

The places of a template are the nodes that a walk meets, in order, each with the scope it is seen from. At
a place names are mentioned: paths, methods, listeners, callbacks, properties whose changes are listened
to. A walk warns about each mention that nobody knows, once and in that order, and about nothing else
(`warnings_of_walk`).
-/

namespace Relabel
open Text
open Markup (Node Head Attribute)
variable {site : Site} {scope : Scope} {head : Head} {a : Attribute} {ns : List Node}

/-- Something that a template asks its component or a schema for. -/
inductive Mention where
  | path (path : String)
  | call (name : String)
  | listener (tag name : String)
  /-- The list of a loop that has none. -/
  | list
  /-- A method that sorts or filters, by its bare name. -/
  | callback (attr name : String)
  /-- A property whose changes are listened to. -/
  | changed (tag property : String)
  deriving DecidableEq, Repr

namespace Scope

/-- A loop around has a variable with the name that a path begins with. -/
def hasVariable (s : Scope) (path : String) : Bool :=
  s.frames.any fun f => f.item.name == leadingSegment path || f.index.name == leadingSegment path

/-- The component has a property with that name. -/
def hasProperty (s : Scope) (path : String) : Bool :=
  s.schema.any fun schema => (schema.property? (leadingSegment path)).isSome

/-- The component has a method with that name, or a property that holds a function. -/
def hasMethod (s : Scope) (path : String) : Bool :=
  s.schema.any fun schema => (schema.methodRenameable? (leadingSegment path)).isSome

end Scope

namespace Mention

/-- Somebody knows what is asked for. -/
def isKnown (site : Site) (scope : Scope) : Mention → Bool
  | path p => scope.hasVariable p || scope.hasProperty p || scope.hasMethod p
  | call name => scope.hasVariable name || scope.hasMethod name
  | listener _ name => scope.hasVariable name || scope.hasMethod name
  | list => false
  | callback _ name => scope.hasMethod name
  | changed tag property => (site.schemas.get? tag).all fun schema => (schema.property? property).isSome

def warning (site : Site) (scope : Scope) : Mention → Warning
  | path p => site.ownerWarning scope (.noProperty p)
  | call name => site.ownerWarning scope (.noMethod name)
  | listener tag name => ⟨site.document, tag, .noListener name tag scope.owner⟩
  | list => site.ownerWarning scope .noItems
  | callback attr name => site.ownerWarning scope (.noCallback attr name)
  | changed tag property => ⟨site.document, tag, .noAttributeProperty property tag scope.owner⟩

end Mention

def Argument.mention? : Argument → Option Mention
  | .path p => some (.path p.text)
  | .literal _ => none

/-- The paths and methods of a binding. -/
def Binding.mentions (b : Binding) : List Mention :=
  match Expression.ofPiece b.expression with
  | .path p => if p.text.isEmpty then [] else [.path p.text]
  | .literal _ => []
  | .call method args => .call method.text :: args.filterMap Argument.mention?

/-- How a loop is taken: whether it has a list, and which bare name an attribute gives. -/
structure LoopReading where
  hasList : Head → Bool
  callback? : Head → String → Option String

namespace Site

/-- What an attribute of a loop holds, if it is taken for the name of a method. -/
def bareName? (head : Head) (attr : String) : Option String :=
  match (head.attribute? attr).bind (·.value) with
  | none => none
  | some v => if (trimmed v).text.isEmpty then none else some (trimmed v).text

/-- Of the attributes with one key the last counts. A callback is given by its bare name if that one has no
expression. -/
def lastReading : LoopReading where
  hasList head := (lastBinding? head "items").isSome
  callback? head attr := if (lastBinding? head attr).isSome then none else bareName? head attr

/-- Any attribute may have the list. A callback is given by its bare name if its attribute has no
binding. -/
def plainReading : LoopReading where
  hasList head := head.attributes.any fun a => bindingKey a == "items" && a.bindings.any Binding.isUsed
  callback? head attr :=
    if (head.attribute? attr).any fun a => !a.bindings.isEmpty then none else bareName? head attr

/-- The listener of an attribute, unless it is a binding. -/
def listenerMentions (head : Head) (a : Attribute) : List Mention :=
  match a.value with
  | none => []
  | some v =>
    if (trimmed v).text.isEmpty || (Binding.find? v.text v.span.start).isSome then []
    else [.listener head.effectiveTag (trimmed v).text]

/-- The property that an attribute `on-…-changed` is about; a loop tells of changes of its own. -/
def changedMentions (head : Head) (a : Attribute) : List Mention :=
  match stripSuffix? "-changed".toList ((withoutDollar a.name.text.toList).drop 3) with
  | none => []
  | some changed =>
    if head.isRepeat && propertyOf changed == "dom" then []
    else [.changed head.effectiveTag (propertyOf changed)]

def attributeMentions (head : Head) (a : Attribute) : List Mention :=
  a.bindings.flatMap Binding.mentions ++
    if isListener a then listenerMentions head a ++ changedMentions head a else []

/-- The entries of the `observe` list of a loop. -/
def observedMentions (site : Site) (head : Head) : List Mention :=
  match (head.attribute? "observe").bind (·.value) with
  | none => []
  | some v =>
    if (Binding.find? v.text v.span.start).isSome then []
    else (wordsFrom v.span.start [] v.text.toList).map fun entry =>
      .path ((site.frame head).item.name ++ "." ++ entry.text)

/-- What a loop itself asks for; the entries of its `observe` list are seen from inside. -/
def loopMentions (site : Site) (r : LoopReading) (scope : Scope) (head : Head) : List (Scope × Mention) :=
  if !r.hasList head then [(scope, .list)]
  else if enters scope head then
    ["sort", "filter"].flatMap (fun attr => (r.callback? head attr).toList.map fun name =>
      (scope, Mention.callback attr name)) ++
      (site.observedMentions head).map fun m => (scope.enter (site.frame head), m)
  else []

/-- What is asked for at a place. -/
def placeMentions (site : Site) (r : LoopReading) : Scope × Node → List (Scope × Mention)
  | (_, .comment _) => []
  | (scope, .text v) => ((Binding.findAll v.text v.span.start).flatMap Binding.mentions).map (scope, ·)
  | (scope, .element head _) => (head.attributes.flatMap (attributeMentions head)).map (scope, ·) ++
      if head.isRepeat then site.loopMentions r scope head else []

mutual

/-- The places of a subtree. The content of a raw text element has none, nor has that of a loop whose list
is missing or unknown. -/
def placesIn (site : Site) (scope : Scope) : Node → List (Scope × Node)
  | .comment span => [(scope, .comment span)]
  | .text v => [(scope, .text v)]
  | .element head children => (scope, .element head children) ::
      if site.options.isRawText head.tag then []
      else if head.isRepeat then
        if enters scope head then site.places (scope.enter (site.frame head)) children else []
      else site.places scope children

def places (site : Site) (scope : Scope) : List Node → List (Scope × Node)
  | [] => []
  | n :: ns => site.placesIn scope n ++ site.places scope ns

end

/-- What a template asks for. -/
def mentions (site : Site) (r : LoopReading) (scope : Scope) (ns : List Node) : List (Scope × Mention) :=
  (site.places scope ns).flatMap (site.placeMentions r)

/-- One warning for each mention that nobody knows. -/
def problems (site : Site) (ms : List (Scope × Mention)) : List Warning :=
  (ms.filter fun m => !m.2.isKnown site m.1).map fun m => m.2.warning site m.1

/-! ### Names that are known -/

end Site

namespace Scope

theorem any_knows_iff {frames : List Frame} {name : String} :
    (frames.any fun f => f.item.name == name || f.index.name == name) = true ↔ ∃ f ∈ frames, f.Knows name := by
  simp [Frame.Knows]

theorem innermost?_eq_none_iff {frames : List Frame} {name : String} :
    innermost? name frames = none ↔ ∀ f ∈ frames, ¬ f.Knows name := by
  refine ⟨fun h f hf hknows => ?_, innermost?_eq_none⟩
  induction frames with
  | nil => cases hf
  | cons g frames ih =>
    rw [innermost?] at h
    split at h
    · cases h
    · next hg =>
      rcases List.mem_cons.1 hf with rfl | hf
      · exact Frame.bound?_eq_none_iff.1 hg hknows
      · exact ih h hf

theorem hasVariable_eq_false_iff {s : Scope} {p : String} :
    s.hasVariable p = false ↔ innermost? (leadingSegment p) s.frames = none := by
  rw [innermost?_eq_none_iff, hasVariable, ← Bool.not_eq_true, any_knows_iff]
  simp only [not_exists, not_and]

theorem isSome_methodRenameable? (s : Scope) (p : String) : (s.methodRenameable? p).isSome = s.hasMethod p := by
  unfold methodRenameable? hasMethod
  cases s.schema <;> rfl

theorem isSome_lookup (s : Scope) (p : String) : (s.lookup p).isSome = (s.hasVariable p || s.hasProperty p) := by
  simp only [lookup]
  cases hfound : innermost? (leadingSegment p) s.frames with
  | some found =>
    have hvariable : s.hasVariable p = true := by
      rw [← Bool.not_eq_false, hasVariable_eq_false_iff, hfound]
      exact Option.some_ne_none _
    rw [hvariable]
    rfl
  | none =>
    rw [hasVariable_eq_false_iff.2 hfound, hasProperty]
    cases s.schema with
    | none => rfl
    | some schema => cases hproperty : schema.property? (leadingSegment p) <;> simp [hproperty]

end Scope

namespace Site

theorem isSome_methodQualifier? (scope : Scope) (name : String) :
    (methodQualifier? scope name).isSome = (scope.hasVariable name || scope.hasMethod name) := by
  unfold methodQualifier?
  cases hfound : Scope.innermost? (leadingSegment name) scope.frames with
  | some found =>
    have hvariable : scope.hasVariable name = true := by
      rw [← Bool.not_eq_false, Scope.hasVariable_eq_false_iff, hfound]
      exact fun h => nomatch h
    simp [Scope.lookup, hfound, hvariable]
  | none =>
    rw [Scope.hasVariable_eq_false_iff.2 hfound, Bool.false_or, ← Scope.isSome_methodRenameable?]
    split
    · next n role bound depth hloop =>
      simp only [Scope.lookup, hfound, Option.bind_eq_bind, Option.bind_eq_some_iff, Option.pure_def] at hloop
      obtain ⟨_, _, _, _, hloop⟩ := hloop
      cases hloop
    · rw [Option.isSome_map]

/-! ### Warnings -/

variable {first second : List (Scope × Mention)} {m : Mention}

theorem problems_append : site.problems (first ++ second) = site.problems first ++ site.problems second := by
  rw [problems, List.filter_append, List.map_append]
  rfl

theorem problems_flatMap {α : Type} (f : α → List (Scope × Mention)) (as : List α) :
    site.problems (as.flatMap f) = as.flatMap fun a => site.problems (f a) := by
  induction as with
  | nil => rfl
  | cons a as ih => rw [List.flatMap_cons, problems_append, ih, List.flatMap_cons]

theorem problems_singleton : site.problems [(scope, m)] =
    if m.isKnown site scope then [] else [m.warning site scope] := by
  rw [problems, List.filter_singleton]
  cases m.isKnown site scope <;> rfl

theorem warnings_pathUsage (site : Site) (scope : Scope) (p : Piece) (role : PathRole) :
    (site.pathUsage scope p role).2 = site.problems [(scope, .path p.text)] := by
  rw [problems_singleton, Mention.isKnown, ← Scope.isSome_lookup, ← Scope.isSome_methodRenameable?, pathUsage]
  cases scope.lookup p.text with
  | some r => rfl
  | none =>
    cases scope.methodRenameable? p.text with
    | some renameable => rfl
    | none => rfl

theorem warnings_argumentUsage (site : Site) (scope : Scope) (arg : Argument) :
    (site.argumentUsage scope arg).2 = site.problems (arg.mention?.toList.map (scope, ·)) := by
  cases arg with
  | literal piece => rfl
  | path piece => exact warnings_pathUsage ..

theorem warnings_callUsage (site : Site) (scope : Scope) (method : Piece) (args : List Argument) :
    (site.callUsage scope method args).2 =
      site.problems ((.call method.text :: args.filterMap Argument.mention?).map (scope, ·)) := by
  have hargs : (args.map (site.argumentUsage scope)).flatMap (·.2) =
      site.problems ((args.filterMap Argument.mention?).map (scope, ·)) := by
    induction args with
    | nil => rfl
    | cons arg args ih =>
      rw [List.map_cons, List.flatMap_cons, ih, warnings_argumentUsage, ← problems_append, ← List.map_append]
      cases arg <;> rfl
  rw [List.map_cons, ← List.singleton_append, problems_append, ← hargs, problems_singleton, Mention.isKnown,
    ← isSome_methodQualifier?, callUsage]
  cases methodQualifier? scope method.text with
  | some q => rfl
  | none => rfl

theorem warnings_bindingUsage? (site : Site) (scope : Scope) (b : Binding) :
    (site.bindingUsage? scope b).toList.flatMap (·.2) = site.problems (b.mentions.map (scope, ·)) := by
  unfold bindingUsage? Binding.mentions
  cases Expression.ofPiece b.expression with
  | path p =>
    cases hempty : p.text.isEmpty with
    | true => simp only [hempty, if_true]; rfl
    | false =>
      simp only [hempty, Bool.false_eq_true, if_false]
      rw [List.map_singleton, ← warnings_pathUsage site scope p .expression]
      exact List.append_nil _
  | literal p => rfl
  | call method args =>
    rw [← warnings_callUsage]
    exact List.append_nil _

theorem warnings_bindingUsages (site : Site) (scope : Scope) (bs : List Binding) :
    (site.bindingUsages scope bs).warnings = site.problems ((bs.flatMap Binding.mentions).map (scope, ·)) := by
  induction bs with
  | nil => rfl
  | cons b bs ih =>
    rw [List.flatMap_cons, List.map_append, problems_append, ← warnings_bindingUsage?, ← ih]
    unfold bindingUsages
    rw [List.filterMap_cons]
    cases site.bindingUsage? scope b with
    | none => rfl
    | some r => simp

theorem warnings_attributeUsages (site : Site) (scope : Scope) (head : Head) (a : Attribute) :
    (site.attributeUsages scope head a).warnings = (site.bindingUsages scope a.bindings).warnings := by
  have hnamed (named : Bool) (us : List Usage) :
      (if named then ⟨us, []⟩ else {} : Found).warnings = [] := by cases named <;> rfl
  simp only [attributeUsages]
  split
  · next hnone =>
    rw [bindings_eq_nil hnone, hnamed]
    rfl
  · next value hvalue =>
    rw [bindings_of_value (Option.filter_eq_some_iff.1 hvalue).1]
    show (_ ++ _) ++ [] = _
    rw [hnamed, List.nil_append, List.append_nil]

theorem warnings_listenerUsages (site : Site) (scope : Scope) (head : Head) (a : Attribute) :
    (site.listenerUsages scope head.effectiveTag a).warnings =
      site.problems ((listenerMentions head a).map (scope, ·)) := by
  unfold listenerUsages listenerMentions
  cases a.value with
  | none => rfl
  | some v =>
    simp only
    split
    · rfl
    · rw [List.map_singleton, problems_singleton, Mention.isKnown, ← isSome_methodQualifier?]
      cases methodQualifier? scope (trimmed v).text with
      | some q => rfl
      | none => rfl

theorem warnings_changedUsages (site : Site) (scope : Scope) (head : Head) (a : Attribute) :
    (site.changedUsages scope head a).warnings = site.problems ((changedMentions head a).map (scope, ·)) := by
  simp only [changedUsages, changedMentions]
  cases stripSuffix? "-changed".toList ((withoutDollar a.name.text.toList).drop 3) with
  | none => rfl
  | some changed =>
    have hproblems : site.problems ((if head.isRepeat && propertyOf changed == "dom" then []
        else [Mention.changed head.effectiveTag (propertyOf changed)]).map (scope, ·)) =
          if head.isRepeat && propertyOf changed == "dom" then []
          else if (site.schemas.get? head.effectiveTag).all fun schema =>
            (schema.property? (propertyOf changed)).isSome then []
          else [Mention.warning site scope (.changed head.effectiveTag (propertyOf changed))] := by
      split
      · rfl
      · exact problems_singleton
    simp only [hproblems]
    cases site.schemas.get? head.effectiveTag with
    | none => simp
    | some schema =>
      cases hproperty : schema.property? (propertyOf changed) with
      | none =>
        simp only [hproperty, Option.all_some, Option.isSome_none, Bool.false_eq_true, if_false]
        split <;> rfl
      | some info =>
        simp only [hproperty, Option.all_some, Option.isSome_some, if_true, ite_self]
        split <;> rfl

theorem warnings_allAttributeUsages (site : Site) (scope : Scope) (head : Head) (a : Attribute) :
    (site.allAttributeUsages scope head a).warnings = site.problems ((attributeMentions head a).map (scope, ·)) := by
  rw [attributeMentions, List.map_append, problems_append, ← warnings_bindingUsages, ← warnings_attributeUsages,
    allAttributeUsages]
  cases isListener a with
  | false => exact (List.append_nil _).symm
  | true =>
    simp only [if_true]
    rw [List.map_append, problems_append, ← warnings_listenerUsages, ← warnings_changedUsages, ← List.append_assoc]
    rfl

theorem warnings_ownUsages (site : Site) (scope : Scope) (head : Head) :
    (site.ownUsages scope head).warnings =
      site.problems ((head.attributes.flatMap (attributeMentions head)).map (scope, ·)) := by
  rw [ownUsages, attributesFound]
  induction head.attributes with
  | nil => rfl
  | cons a as ih =>
    rw [List.flatMap_cons, List.map_append, problems_append, ← ih, ← warnings_allAttributeUsages]
    rfl

/-! ### Loops -/

theorem warnings_observedUsages (site : Site) (scope : Scope) (head : Head) :
    (site.observedUsages scope head (site.frame head).item.name).warnings =
      site.problems ((site.observedMentions head).map (scope, ·)) := by
  unfold observedUsages observedMentions
  cases (head.attribute? "observe").bind (·.value) with
  | none => rfl
  | some v =>
    simp only
    split
    · rfl
    · show List.flatMap (fun r : Usage × List Warning => r.2) (List.map _ _) = _
      induction wordsFrom v.span.start [] v.text.toList with
      | nil => rfl
      | cons entry entries ih =>
        rw [List.map_cons, List.flatMap_cons, ih, warnings_pathUsage, ← problems_append]
        rfl

theorem warnings_namedCallback (site : Site) (scope : Scope) (head : Head) (attr : String) :
    (site.namedCallback scope head attr).2 =
      site.problems ((bareName? head attr).toList.map fun name => (scope, .callback attr name)) := by
  unfold namedCallback bareName?
  cases (head.attribute? attr).bind (·.value) with
  | none => rfl
  | some v =>
    simp only
    split
    · rfl
    · rw [Option.toList_some, List.map_singleton, problems_singleton, Mention.isKnown,
        ← Scope.isSome_methodRenameable?]
      cases scope.methodRenameable? (trimmed v).text with
      | none => rfl
      | some renameable => rfl

/-- A callback warns if it is the bare name of no method. -/
theorem warnings_callbackUsages (site : Site) (scope : Scope) (head : Head) (attr : String) (kind : CallbackKind)
    (bound : Option Usage) (items : Fragment.Phrase) :
    (site.callbackUsages scope head attr kind bound items).warnings =
      site.problems ((if bound.isSome then none else bareName? head attr).toList.map fun name =>
        (scope, .callback attr name)) := by
  unfold callbackUsages
  cases hattr : head.attribute? attr with
  | none => cases bound <;> simp [bareName?, hattr, problems]
  | some a =>
    cases bound with
    | some function => rfl
    | none =>
      simp only [Option.isNone_some, Bool.false_eq_true, if_false, Option.isSome_none]
      rw [← warnings_namedCallback]
      split <;> next h => rw [h]

theorem enters_of_openLoop {r : Except (List Warning) Opening}
    (h : site.openLoop scope head (site.attributesFound scope head) = r) : enters scope head = r.isOk := by
  rw [← isOk_openLoop site, h]

theorem frame_of_openLoop {opening : Opening}
    (h : site.openLoop scope head (site.attributesFound scope head) = .ok opening) :
    opening.frame = site.frame head := by
  obtain ⟨-, -, itemName, indexName, hitem, hindex, -⟩ := openLoop_eq_ok h
  rw [frame, hitem, hindex]

/-- A loop that is passed over warns if it has no list; otherwise its list has warned. -/
theorem warnings_of_openLoop_eq_error {warnings : List Warning}
    (h : site.openLoop scope head (site.attributesFound scope head) = .error warnings) :
    warnings = site.problems (site.loopMentions lastReading scope head) := by
  have henters : enters scope head = false := enters_of_openLoop h
  have hlist := isSome_boundUsage? "items" (fun _ => rfl) site scope head
  simp only [loopMentions, lastReading, henters, Bool.false_eq_true, if_false, ← hlist]
  unfold openLoop at h
  simp only [bind, Except.bind, pure, Except.pure] at h
  split at h
  · next hbound =>
    obtain rfl := Except.error.inj h
    rw [hbound]
    rfl
  · next hbound =>
    rw [hbound]
    split at h
    · cases h
    · obtain rfl := Except.error.inj h
      rfl
  · next hbound =>
    rw [hbound]
    split at h
    · cases h
    · obtain rfl := Except.error.inj h
      rfl

theorem warnings_closeLoop {opening : Opening}
    (h : site.openLoop scope head (site.attributesFound scope head) = .ok opening) (content : Found) :
    (closeLoop scope head opening content).warnings =
      site.problems (site.loopMentions lastReading scope head) ++ content.warnings := by
  have henters : enters scope head = true := enters_of_openLoop h
  obtain ⟨hitems, ⟨phrase, -, hbefore⟩, itemName, indexName, -, -, hinside⟩ := openLoop_eq_ok h
  have hsort := isSome_boundUsage? "sort" (fun _ => rfl) site scope head
  have hfilter := isSome_boundUsage? "filter" (fun _ => rfl) site scope head
  have hlist := isSome_boundUsage? "items" (fun _ => rfl) site scope head
  rw [hitems, Option.isSome_some] at hlist
  have hwarnings : (closeLoop scope head opening content).warnings =
      opening.before.warnings ++ (opening.inside.warnings ++ content.warnings) := rfl
  rw [hwarnings, ← List.append_assoc]
  congr 1
  have hobserved : opening.inside.warnings =
      (site.observedUsages (scope.enter (site.frame head)) head (site.frame head).item.name).warnings := by
    rw [hinside, frame_of_openLoop h]
    rfl
  have hcallbacks : opening.before.warnings = site.problems (["sort", "filter"].flatMap fun attr =>
      (lastReading.callback? head attr).toList.map fun name => (scope, Mention.callback attr name)) := by
    rw [problems_flatMap, List.flatMap_cons, List.flatMap_singleton]
    simp only [lastReading]
    rw [← hsort, ← hfilter, ← warnings_callbackUsages site scope head "sort" .sort _ phrase,
      ← warnings_callbackUsages site scope head "filter" .filter _ phrase, hbefore]
    rfl
  rw [hobserved, warnings_observedUsages, hcallbacks, ← problems_append, loopMentions, if_pos henters]
  simp [lastReading, ← hlist]

/-! ### The walk -/

theorem mentions_cons (site : Site) (r : LoopReading) (scope : Scope) (n : Node) (ns : List Node) :
    site.mentions r scope (n :: ns) =
      (site.placesIn scope n).flatMap (site.placeMentions r) ++ site.mentions r scope ns := by
  rw [mentions, places, List.flatMap_append]
  rfl

mutual

theorem warnings_of_walkNode : ∀ {n : Node} {scope : Scope} {found : Found},
    site.walkNode scope n = .ok found →
      found.warnings = site.problems ((site.placesIn scope n).flatMap (site.placeMentions lastReading))
  | .comment _, scope, found, h => by
    cases h
    rfl
  | .text v, scope, found, h => by
    cases h
    rw [placesIn, List.flatMap_singleton, placeMentions, ← warnings_bindingUsages]
    rfl
  | .element head children, scope, found, h => by
    simp only [walkNode, bind, Except.bind, pure, Except.pure] at h
    split at h
    · cases h
    · next attributes hattributes =>
      obtain rfl := eq_of_attributesOf hattributes
      have hown (more : Found) : (Found.concat ((site.attributesFound scope head).map (·.2)) ++ more).warnings =
          site.problems ((head.attributes.flatMap (attributeMentions head)).map (scope, ·)) ++ more.warnings := by
        rw [← warnings_ownUsages]
        rfl
      rw [placesIn, List.flatMap_cons, placeMentions, problems_append, problems_append]
      cases hrepeat : head.isRepeat with
      | false =>
        simp only [hrepeat, Bool.false_eq_true, if_false] at h ⊢
        cases hraw : site.options.isRawText head.tag with
        | true =>
          simp only [hraw, if_true] at h ⊢
          obtain rfl := Except.ok.inj h
          rw [hown]
          exact (List.append_nil _).symm
        | false =>
          simp only [hraw, Bool.false_eq_true, if_false] at h ⊢
          split at h
          · cases h
          · next content hcontent =>
            obtain rfl := Except.ok.inj h
            rw [hown, warnings_of_walk hcontent, mentions]
            simp [problems]
      | true =>
        simp only [hrepeat, if_true] at h ⊢
        split at h
        · next warnings hopening =>
          obtain rfl := Except.ok.inj h
          have henters : enters scope head = false := enters_of_openLoop hopening
          rw [hown, ← warnings_of_openLoop_eq_error hopening]
          simp [henters, problems]
        · next opening hopening =>
          have henters : enters scope head = true := enters_of_openLoop hopening
          cases hraw : site.options.isRawText head.tag with
          | true =>
            simp only [hraw, if_true] at h ⊢
            obtain rfl := Except.ok.inj h
            rw [hown, warnings_closeLoop hopening]
            simp [problems]
          | false =>
            simp only [hraw, henters, Bool.false_eq_true, if_false, if_true] at h ⊢
            split at h
            · cases h
            · next content hcontent =>
              obtain rfl := Except.ok.inj h
              rw [hown, warnings_closeLoop hopening, warnings_of_walk hcontent, frame_of_openLoop hopening,
                List.append_assoc, mentions]

/-- A walk warns about the mentions that nobody knows, and about nothing else. -/
theorem warnings_of_walk : ∀ {ns : List Node} {scope : Scope} {found : Found},
    site.walk scope ns = .ok found → found.warnings = site.problems (site.mentions lastReading scope ns)
  | [], scope, found, h => by
    cases h
    rfl
  | n :: ns, scope, found, h => by
    simp only [walk, bind, Except.bind, pure, Except.pure] at h
    split at h
    · cases h
    · next first hfirst =>
      split at h
      · cases h
      · next rest hrest =>
        obtain rfl := Except.ok.inj h
        rw [mentions_cons, problems_append, ← warnings_of_walkNode hfirst, ← warnings_of_walk hrest]
        rfl

end

end Site

end Relabel
