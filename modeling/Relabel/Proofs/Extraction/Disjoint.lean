import Relabel.Proofs.Extraction.Laid
import Relabel.Proofs.Splice.Reference

/-!
# What a template records does not collide

A loop reads the values of some of its attributes, and only of those that bind nothing (`Taken`). For a function
of the loop this is asked of the last attribute of its name and read in the first one, so the two have to agree
(`Site.RecordsOnce`). Then what an element records is apart from what the loop reads, and by induction on the
walk from what stands below it (`Walked.laid`). So no new names make a splice of what one template records fail for an
overlap (`clear_of_extracts`).
-/

namespace Relabel
open Text
open Markup (Node Head Attribute Document Carrier preorderOf)
variable {site : Site} {scope : Scope} {head : Head} {a b : Attribute} {p : Piece} {v : Piece} {s t : Span} {ss : List Span}
  {source : List Char} {key : String} {children nodes : List Node} {document : Document} {d : DocumentUsages}
  {template : TemplateUsages} {edits : List Edit}

namespace Site

/-- No attribute has its name recorded twice, and of the attributes that give one function of a loop the last
one binds it if the first one does. -/
structure RecordsOnce (site : Site) (head : Head) : Prop where
  names : ∀ a ∈ head.attributes, ¬ site.NamesTwice head a
  callbacks : head.isRepeat = true → ∀ key ∈ ["sort", "filter"], ∀ a ∈ head.attribute? key,
    ∀ b ∈ head.attributes.reverse.find? (bindingKey · == key),
      a.bindings.any Binding.isUsed = true → b.bindings.any Binding.isUsed = true

instance (site : Site) (head : Head) : Decidable (site.RecordsOnce head) :=
  decidable_of_iff (_ ∧ _) ⟨fun h => ⟨h.1, h.2⟩, fun h => ⟨h.names, h.callbacks⟩⟩

/-- A node records once if it is no element or one that does. -/
def RecordsOnceAt (site : Site) : Node → Prop
  | .element head _ => site.RecordsOnce head
  | _ => True

instance (site : Site) : (n : Node) → Decidable (site.RecordsOnceAt n)
  | .element head _ => inferInstanceAs (Decidable (site.RecordsOnce head))
  | .text _ => inferInstanceAs (Decidable True)
  | .comment _ => inferInstanceAs (Decidable True)

/-! ### Loops -/

/-- What a loop reads from the value of an attribute that records at most its name itself. -/
def Taken (site : Site) (scope : Scope) (head : Head) (key : String) (ss : List Span) : Prop :=
  ss = [] ∨ ∃ a v, head.attribute? key = some a ∧ a.value = some v ∧ Laid [.text v] ss ∧
    Laid [.name a.name] (Usage.recordedSpans (site.allAttributeUsages scope head a).usages)

theorem lowercase_of_attribute? (h : head.attribute? key = some a) : lowercase a.name.text = lowercase key := by
  have hletters := List.find?_some h
  rw [lowercase, lowercase, eq_of_beq hletters]

theorem isListener_of_attribute? (h : head.attribute? key = some a) :
    isListener a = (stripPrefix? "on-".toList (lowercase key).toList).isSome := by
  rw [isListener, lowercase_of_attribute? h]

/-- What is taken from a value without bindings. -/
theorem taken_of_unbound (hfit : size source < UInt32.size) (hstands : ∀ a ∈ head.attributes, a.On 0 source) (ha : head.attribute? key = some a)
    (hv : a.value = some v) (hkey : (stripPrefix? "on-".toList (lowercase key).toList).isSome = false)
    (hbound : a.bindings.any Binding.isUsed = false) (h : Laid [.text v] ss) : Taken site scope head key ss := by
  have hon := isListener_of_attribute? ha
  rw [hkey] at hon
  exact .inr ⟨a, v, ha, hv, h, laid_name_of_unbound site scope head hfit (hstands a (List.mem_of_find?_eq_some ha)) hon hbound⟩

theorem any_isUsed_of_find? (hv : a.value = some v) (h : (Binding.find? v.text v.span.start).isSome = false) :
    a.bindings.any Binding.isUsed = false := by
  rw [bindings_of_value hv, findAll_eq_nil h]
  rfl

/-- A variable that has its name from a value is read from one without bindings. -/
theorem unbound_of_loopVariable {attr standard : String} {bound : LoopVariable} {name : Piece}
    (h : site.loopVariable head attr standard = (bound, some name)) :
    ∃ v, (head.attribute? attr).bind (·.value) = some v ∧ (Binding.find? v.text v.span.start).isSome = false ∧
      name = trimmed v ∧ name.text.isEmpty = false := by
  unfold loopVariable at h
  split at h
  · cases h
  · next v hv =>
    split at h
    · cases h
    · next hfind =>
      dsimp only at h
      split at h
      · cases h
      · next hne =>
        cases h
        exact ⟨v, hv, by rw [hfind]; rfl, rfl, Bool.eq_false_iff.2 hne⟩

theorem taken_variableUsage? (role : LoopRole) {bound : LoopVariable} {depth : Nat} {name : Option Piece}
    {standard : String} (hfit : size source < UInt32.size) (hstands : ∀ a ∈ head.attributes, a.On 0 source)
    (h : site.loopVariable head role.attribute standard = (bound, name)) :
    Taken site scope head role.attribute (Usage.recordedSpans (variableUsage? role bound depth name).toList) := by
  cases hu : variableUsage? role bound depth name with
  | none => exact .inl rfl
  | some u =>
    simp only [variableUsage?, Option.bind_eq_bind, Option.bind_eq_some_iff, Option.pure_def,
      Option.some.injEq] at hu
    obtain ⟨p, rfl, -, -, rfl⟩ := hu
    obtain ⟨v, hv, hfind, rfl, hne⟩ := unbound_of_loopVariable h
    obtain ⟨a, ha, hav⟩ := Option.bind_eq_some_iff.1 hv
    have hon := hstands a (List.mem_of_find?_eq_some ha)
    have hbegins : (trimmed v).span.BeginsIn (Carrier.text v).piece.span := beginsIn_trimmed hfit (hon.value hav) hne
    refine taken_of_unbound hfit hstands ha hav (by cases role <;> rfl) (any_isUsed_of_find? hav hfind) ?_
    refine (Laid.single (List.mem_singleton_self _) hbegins).sublist ?_
    rw [Option.toList_some, Usage.recordedSpans_cons, Usage.references, Fragment.map_span_named,
      Usage.recordedSpans_nil, List.append_nil]
    split
    · exact .refl _
    · exact List.nil_sublist _

theorem ne_nil_of_mem_wordsFrom {start : Nat} {word cs : List Char} (h : p ∈ wordsFrom start word cs) :
    p.text.toList ≠ [] := by
  induction cs generalizing start word with
  | nil =>
    rw [wordsFrom] at h
    split at h
    · cases h
    · next hword =>
      obtain rfl := List.mem_singleton.1 h
      simpa using hword
  | cons c cs ih =>
    rw [wordsFrom] at h
    split at h
    · dsimp only at h
      split at h
      · exact ih h
      · next hword =>
        rcases List.mem_cons.1 h with rfl | h
        · simpa using hword
        · exact ih h
    · exact ih h

theorem taken_observedUsages (hfit : size source < UInt32.size)
    (hstands : ∀ a ∈ head.attributes, a.On 0 source) (inner : Scope) (item : String) :
    Taken site scope head "observe" (Usage.recordedSpans (site.observedUsages inner head item).usages) := by
  unfold observedUsages
  split
  · exact .inl rfl
  · next v hv =>
    split
    · exact .inl rfl
    · next hfind =>
      obtain ⟨a, ha, hav⟩ := Option.bind_eq_some_iff.1 hv
      have hon := hstands a (List.mem_of_find?_eq_some ha)
      have hspans (entries : List Piece) : Usage.recordedSpans ((entries.map fun entry =>
          site.pathUsage inner ⟨item ++ "." ++ entry.text, entry.span⟩ .observed).map (·.1)) =
            entries.map Piece.span := by
        induction entries with
        | nil => rfl
        | cons entry entries ih =>
          obtain ⟨q, -, hpath⟩ := looked_pathUsage site inner ⟨item ++ "." ++ entry.text, entry.span⟩ .observed
          rw [List.map_cons, List.map_cons, Usage.recordedSpans_cons, ih, hpath]
          rfl
      refine taken_of_unbound hfit hstands ha hav rfl (any_isUsed_of_find? hav (Bool.eq_false_iff.2 hfind)) ?_
      dsimp only
      rw [hspans]
      have hinner := (hon.value hav).fits (by omega)
      refine .of_pieces (ordered_wordsFrom hinner) fun p hp => ?_
      have hword := stands_wordsFrom hp
      rw [List.reverse_nil, List.nil_append] at hword
      have hinside := (hon.value hav).inside (by omega) hword
      have hsize := hword.stop_eq hinner
      have hpos : 0 < size p.text.toList := Nat.pos_of_ne_zero (mt size_eq_zero.1 (ne_nil_of_mem_wordsFrom hp))
      unfold Piece.Inside at hinside
      refine ⟨by omega, hinside.1, ?_, hinside.2⟩
      simp only [Carrier.piece]
      omega

theorem exists_namedCallback {function : Usage} {warnings : List Warning}
    (h : site.namedCallback scope head key = (some function, warnings)) :
    ∃ a v, head.attribute? key = some a ∧ a.value = some v ∧ (trimmed v).text.isEmpty = false ∧
      (function.references.map Reference.span).Sublist [(trimmed v).span] := by
  unfold namedCallback at h
  split at h
  · cases h
  · next v hv =>
    obtain ⟨a, ha, hav⟩ := Option.bind_eq_some_iff.1 hv
    dsimp only at h
    split at h
    · cases h
    · next hne =>
      split at h
      · next renameable _ =>
        cases h
        refine ⟨a, v, ha, hav, Bool.eq_false_iff.2 hne, ?_⟩
        rw [Usage.references, Fragment.map_span_named]
        split
        · exact .refl _
        · exact List.nil_sublist _
      · cases h

/-- If a loop is bound to no function of a name, the attribute that may name it binds nothing. -/
theorem any_isUsed_of_boundUsage? (honce : site.RecordsOnce head) (hrepeat : head.isRepeat = true)
    (hkey : key ∈ ["sort", "filter"]) (hnone : boundUsage? (site.attributesFound scope head) key = none)
    (ha : head.attribute? key = some a) : a.bindings.any Binding.isUsed = false := by
  have hplain : (key.toList.map lowerAscii = key.toList ∧ '$' ∉ key.toList) ∧
      ∀ cs, stripPrefix? "on-".toList (key.toList ++ cs) = none := by
    rcases List.mem_cons.1 hkey with rfl | hkey
    · exact ⟨by decide, fun _ => rfl⟩
    · obtain rfl := List.mem_singleton.1 hkey
      exact ⟨by decide, fun _ => rfl⟩
  have hsome : (head.attributes.reverse.find? (bindingKey · == key)).isSome := by
    rw [List.find?_isSome]
    exact ⟨a, List.mem_reverse.2 (List.mem_of_find?_eq_some ha), beq_iff_eq.2 (bindingKey_of_attribute? ha hplain.1)⟩
  obtain ⟨b, hb⟩ := Option.isSome_iff_exists.1 hsome
  have hbound : b.bindings.any Binding.isUsed = false := by
    have hlast := isSome_boundUsage? key hplain.2 site scope head
    rw [hnone, lastBinding?, hb, Option.bind_some, List.isSome_find?] at hlast
    exact hlast.symm
  by_contra hany
  rw [honce.callbacks hrepeat key hkey a ha b hb (by simpa using hany)] at hbound
  cases hbound

/-- A function of a loop is read from a value if the attribute binds none. -/
theorem taken_callbackUsages {kind : CallbackKind} {items : Fragment.Phrase}
    (hfit : size source < UInt32.size) (hstands : ∀ a ∈ head.attributes, a.On 0 source)
    (honce : site.RecordsOnce head) (hrepeat : head.isRepeat = true)
    (hkey : key ∈ ["sort", "filter"]) :
    Taken site scope head key (Usage.recordedSpans (site.callbackUsages scope head key kind
      (boundUsage? (site.attributesFound scope head) key) items).usages) := by
  have hcall (function : Usage) : Usage.recordedSpans (callbackUsage? kind function items).toList = [] := by
    refine recordedSpans_eq_nil fun u hu => ?_
    simp only [callbackUsage?, Option.mem_toList, Option.bind_eq_bind, Option.bind_eq_some_iff,
      Option.pure_def, Option.some.injEq] at hu
    obtain ⟨_, -, _, -, rfl⟩ := hu
    rfl
  unfold callbackUsages
  split
  · exact .inl rfl
  · split
    · exact .inl (hcall _)
    · next hnone =>
      split
      · next function warnings hnamed =>
        obtain ⟨a, v, ha, hav, hne, hspans⟩ := exists_namedCallback hnamed
        have hon := hstands a (List.mem_of_find?_eq_some ha)
        have hbegins : (trimmed v).span.BeginsIn (Carrier.text v).piece.span := beginsIn_trimmed hfit (hon.value hav) hne
        refine taken_of_unbound hfit hstands ha hav ?_ (any_isUsed_of_boundUsage? honce hrepeat hkey hnone ha) ?_
        · rcases List.mem_cons.1 hkey with rfl | hkey
          · rfl
          · obtain rfl := List.mem_singleton.1 hkey
            rfl
        · dsimp only
          rw [Usage.recordedSpans_cons, hcall, List.append_nil]
          exact (Laid.single (List.mem_singleton_self _) hbegins).sublist hspans
      · exact .inl rfl

/-! ### Elements -/

theorem clear_of_extents (hfit : size source < UInt32.size) (ha : a.On 0 source) (hb : b.On 0 source) (h : a.extent.stop ≤ b.extent.start)
    (hs : ∃ c ∈ a.carriers, s.BeginsIn c.piece.span) (ht : ∃ c ∈ b.carriers, t.BeginsIn c.piece.span) :
    s.Clear t := by
  obtain ⟨c, hc, hs⟩ := hs
  obtain ⟨d, hd, ht⟩ := ht
  exact hs.clear ht (Nat.le_trans (ha.inside (by omega) hc).2 (Nat.le_trans h (hb.inside (by omega) hd).1))

/-- What begins in two attributes of an element is clear. -/
theorem clear_of_ne (hfit : size source < UInt32.size) (hstands : (Node.element head children).Stands source) (ha : a ∈ head.attributes)
    (hb : b ∈ head.attributes) (hne : a ≠ b) (hs : ∃ c ∈ a.carriers, s.BeginsIn c.piece.span)
    (ht : ∃ c ∈ b.carriers, t.BeginsIn c.piece.span) : s.Clear t := by
  rcases Span.eq_or_apart (List.pairwise_map.1 (hstands.ascending hfit).pairwise) ha hb with heq | hapart | hapart
  · exact absurd heq hne
  · exact clear_of_extents hfit (hstands.on ha) (hstands.on hb) hapart hs ht
  · exact (clear_of_extents hfit (hstands.on hb) (hstands.on ha) hapart ht hs).symm

theorem recordedSpans_ownUsages (site : Site) (scope : Scope) (head : Head) :
    Usage.recordedSpans (site.ownUsages scope head).usages =
      head.attributes.flatMap fun a => Usage.recordedSpans (site.allAttributeUsages scope head a).usages := by
  unfold ownUsages attributesFound
  induction head.attributes with
  | nil => rfl
  | cons a as ih =>
    rw [List.flatMap_cons, ← ih, ← Usage.recordedSpans_append]
    rfl

/-- What an element records, and what a loop reads from the values of its attributes. -/
theorem laid_element (hfit : size source < UInt32.size) (hstands : (Node.element head children).Stands source)
    (honce : site.RecordsOnce head) {es : List (String × List Span)} (hkeys : (es.map Prod.fst).Pairwise fun key key' => lowercase key ≠ lowercase key')
    (htaken : ∀ e ∈ es, Taken site scope head e.1 e.2) :
    Laid (head.attributes.flatMap Attribute.carriers)
      (Usage.recordedSpans (site.ownUsages scope head).usages ++ es.flatMap Prod.snd) := by
  have hon (a : Attribute) (ha : a ∈ head.attributes) : a.On 0 source := hstands.on ha
  have hown (a : Attribute) (ha : a ∈ head.attributes) :=
    laid_allAttributeUsages site scope hfit (hon a ha) (honce.names a ha)
  have hvalue {e : String × List Span} (he : e ∈ es) {s : Span} (hs : s ∈ e.2) :
      ∃ a v, head.attribute? e.1 = some a ∧ a ∈ head.attributes ∧ a.value = some v ∧
        (∃ c ∈ a.carriers, s.BeginsIn c.piece.span) ∧ Laid [.text v] e.2 ∧
          Laid [.name a.name] (Usage.recordedSpans (site.allAttributeUsages scope head a).usages) := by
    rcases htaken e he with hnil | ⟨a, v, ha, hav, hlaid, hname⟩
    · rw [hnil] at hs
      cases hs
    · obtain ⟨c, hc, hbegins⟩ := hlaid.carried s hs
      obtain rfl := List.mem_singleton.1 hc
      refine ⟨a, v, ha, List.mem_of_find?_eq_some ha, hav, ⟨.text v, ?_, hbegins⟩, hlaid, hname⟩
      simp [Attribute.carriers, hav]
  have hcarried {a : Attribute} (ha : a ∈ head.attributes) {s : Span} (h : ∃ c ∈ a.carriers, s.BeginsIn c.piece.span) :
      ∃ c ∈ head.attributes.flatMap Attribute.carriers, s.BeginsIn c.piece.span :=
    h.imp fun c hc => ⟨List.mem_flatMap.2 ⟨a, ha, hc.1⟩, hc.2⟩
  rw [recordedSpans_ownUsages]
  refine Laid.append_of_clear ⟨fun s hs => ?_, ?_⟩ ⟨fun s hs => ?_, ?_⟩ fun s hs t ht => ?_
  · obtain ⟨a, ha, hs⟩ := List.mem_flatMap.1 hs
    exact hcarried ha ((hown a ha).carried s hs)
  · refine List.pairwise_flatMap.2 ⟨fun a ha => (hown a ha).clear, ?_⟩
    refine (List.pairwise_map.1 (hstands.ascending hfit).pairwise).imp_of_mem fun ha hb hab s hs t ht => ?_
    exact clear_of_extents hfit (hon _ ha) (hon _ hb) hab ((hown _ ha).carried s hs) ((hown _ hb).carried t ht)
  · obtain ⟨e, he, hs⟩ := List.mem_flatMap.1 hs
    obtain ⟨a, v, -, ha, -, hbegins, -, -⟩ := hvalue he hs
    exact hcarried ha hbegins
  · refine List.pairwise_flatMap.2 ⟨fun e he => ?_, (List.pairwise_map.1 hkeys).imp_of_mem fun he he' hne s hs t ht => ?_⟩
    · rcases htaken e he with hnil | ⟨a, v, -, -, hlaid, -⟩
      · rw [hnil]
        exact .nil
      · exact hlaid.clear
    · obtain ⟨a, v, hfind, ha, -, hbegins, -, -⟩ := hvalue he hs
      obtain ⟨b, w, hfind', hb, -, hbegins', -, -⟩ := hvalue he' ht
      refine clear_of_ne hfit hstands ha hb ?_ hbegins hbegins'
      rintro rfl
      exact hne ((lowercase_of_attribute? hfind).symm.trans (lowercase_of_attribute? hfind'))
  · obtain ⟨b, hb, hs⟩ := List.mem_flatMap.1 hs
    obtain ⟨e, he, ht⟩ := List.mem_flatMap.1 ht
    obtain ⟨a, v, -, ha, hav, hbegins, hlaid, hname⟩ := hvalue he ht
    by_cases heq : b = a
    · subst heq
      obtain ⟨c, hc, hs⟩ := hname.carried s hs
      obtain ⟨d, hd, ht⟩ := hlaid.carried t ht
      obtain rfl := List.mem_singleton.1 hc
      obtain rfl := List.mem_singleton.1 hd
      exact hs.clear ht (Nat.le_of_lt ((hon b hb).name_lt_value (by omega) hav))
    · exact clear_of_ne hfit hstands hb ha heq ((hown b hb).carried s hs) hbegins

/-! ### The walk -/

theorem isRenameable_of_rescope {q : Qualifier} {depth : Nat} {path : String}
    (h : (q.rescope depth).isRenameable path = true) : q.isRenameable path = true := by
  cases q with
  | component renameable => exact h
  | item base => exact h
  | loop role bound d =>
    cases role with
    | index => exact h
    | item =>
      simp only [Qualifier.rescope] at h
      split at h
      · exact Bool.or_eq_true .. ▸ .inr h
      · exact h

theorem named_rescope_sublist (span : Span) (q : Qualifier) (depth : Nat) (path : String) :
    ((if (q.rescope depth).isRenameable path = true then [Reference.named span (q.rescope depth) path]
      else []).map Reference.span).Sublist
      ((if q.isRenameable path = true then [Reference.named span q path] else []).map Reference.span) := by
  rw [Fragment.map_span_named, Fragment.map_span_named]
  split
  · next h =>
    rw [if_pos (isRenameable_of_rescope h)]
  · exact List.nil_sublist _

mutual

/-- Closing a loop changes no span and records nothing more. -/
theorem references_rescope_sublist (depth : Nat) : ∀ u : Usage,
    ((u.rescope depth).references.map Reference.span).Sublist (u.references.map Reference.span)
  | .path span path q .expression => named_rescope_sublist span q depth path
  | .path _ _ _ .observed => .refl _
  | .call span name q args => by
    rw [Usage.rescope, Usage.references, Usage.references, List.map_append, List.map_append]
    exact (named_rescope_sublist span q depth name).append (recordedSpans_rescopeAll_sublist depth args)
  | .literal _ => .refl _
  | .loop _ _ _ _ children => recordedSpans_rescopeAll_sublist depth children
  | .attributeName .. => .refl _
  | .listener span method q => named_rescope_sublist span q depth method
  | .dataFlow .. => .refl _
  | .callback .. => .refl _

theorem recordedSpans_rescopeAll_sublist (depth : Nat) : ∀ us : List Usage,
    (Usage.recordedSpans (Usage.rescopeAll depth us)).Sublist (Usage.recordedSpans us)
  | [] => .refl _
  | u :: us => by
    rw [Usage.rescopeAll, Usage.recordedSpans_cons, Usage.recordedSpans_cons]
    exact (references_rescope_sublist depth u).append (recordedSpans_rescopeAll_sublist depth us)

end

/-- What a loop records besides its content. -/
theorem laid_openLoop {opening : Opening} (hfit : size source < UInt32.size) (hstands : (Node.element head children).Stands source)
    (honce : site.RecordsOnce head) (hrepeat : head.isRepeat = true)
    (h : site.openLoop scope head (site.attributesFound scope head) = .ok opening) :
    Laid (head.attributes.flatMap Attribute.carriers) (Usage.recordedSpans (site.ownUsages scope head).usages ++
      (Usage.recordedSpans opening.before.usages ++ Usage.recordedSpans opening.inside.usages)) := by
  obtain ⟨-, ⟨phrase, -, hbefore⟩, itemName, indexName, hitem, hindex, hinside⟩ := openLoop_eq_ok h
  have hon (a : Attribute) (ha : a ∈ head.attributes) : a.On 0 source := hstands.on ha
  let before (key : String) (kind : CallbackKind) := Usage.recordedSpans (site.callbackUsages scope head key kind
    (boundUsage? (site.attributesFound scope head) key) phrase).usages
  let named (role : LoopRole) (bound : LoopVariable) (name : Option Piece) :=
    Usage.recordedSpans (variableUsage? role bound (scope.enter opening.frame).depth name).toList
  let es : List (String × List Span) := [("sort", before "sort" .sort), ("filter", before "filter" .filter),
    ("as", named .item opening.frame.item itemName), ("index-as", named .index opening.frame.index indexName),
    ("observe", Usage.recordedSpans
      (site.observedUsages (scope.enter opening.frame) head opening.frame.item.name).usages)]
  have hes : Usage.recordedSpans opening.before.usages ++ Usage.recordedSpans opening.inside.usages =
      es.flatMap Prod.snd := by
    rw [hbefore, hinside]
    change Usage.recordedSpans (_ ++ _) ++ Usage.recordedSpans (_ ++ _ ++ _) = _
    simp [es, before, named, Usage.recordedSpans_append]
  rw [hes]
  refine laid_element hfit hstands honce (show ["sort", "filter", "as", "index-as", "observe"].Pairwise _ by decide) ?_
  intro e he
  simp only [es, List.mem_cons, List.not_mem_nil, or_false] at he
  rcases he with rfl | rfl | rfl | rfl | rfl
  · exact taken_callbackUsages hfit hon honce hrepeat List.mem_cons_self
  · exact taken_callbackUsages hfit hon honce hrepeat (List.mem_cons_of_mem _ List.mem_cons_self)
  · exact taken_variableUsage? .item hfit hon hitem
  · exact taken_variableUsage? .index hfit hon hindex
  · exact taken_observedUsages hfit hon _ _

/-- What a loop records with its content. -/
theorem recordedSpans_closeLoop_sublist (scope : Scope) (head : Head) (opening : Opening) (content : Found) :
    (Usage.recordedSpans (closeLoop scope head opening content).usages).Sublist
      (Usage.recordedSpans opening.before.usages ++ Usage.recordedSpans opening.inside.usages ++
        Usage.recordedSpans content.usages) := by
  change (Usage.recordedSpans (opening.before.usages ++ [_])).Sublist _
  rw [Usage.recordedSpans_append, Usage.recordedSpans_cons, Usage.recordedSpans_nil, List.append_nil,
    List.append_assoc, ← Usage.recordedSpans_append]
  refine (List.Sublist.refl _).append ?_
  rw [Usage.references, ← Usage.recordedSpans]
  split
  · exact recordedSpans_rescopeAll_sublist _ _
  · exact .refl _

theorem carriers_element (head : Head) (children : List Node) :
    (preorderOf [.element head children]).flatMap Node.carriers =
      head.attributes.flatMap Attribute.carriers ++ (preorderOf children).flatMap Node.carriers := by
  rw [Markup.preorderOf_singleton, Node.preorder, List.flatMap_cons, Node.carriers]

/-- Some nodes stand in a source one after another, which ends below the last word, and their elements record
once. -/
structure Orderly (site : Site) (source : List Char) (nodes : List Node) : Prop where
  fits : size source < UInt32.size
  stands : ∀ n ∈ preorderOf nodes, n.Stands source
  once : ∀ n ∈ preorderOf nodes, site.RecordsOnceAt n
  ordered : ((preorderOf nodes).flatMap Node.carriers).Pairwise fun c d => c.piece.Before d.piece

namespace Orderly

theorem sublist (h : site.Orderly source nodes) {below : List Node} (hsub : (preorderOf below).Sublist (preorderOf nodes)) :
    site.Orderly source below :=
  ⟨h.fits, fun n hn => h.stands n (hsub.subset hn), fun n hn => h.once n (hsub.subset hn), h.ordered.sublist (hsub.flatMap _)⟩

theorem first {n : Node} (h : site.Orderly source (n :: nodes)) : n.Stands source ∧ site.RecordsOnceAt n :=
  have hself : n ∈ preorderOf (n :: nodes) := List.mem_append_left _ (Node.mem_preorder_self n)
  ⟨h.stands n hself, h.once n hself⟩

/-- What an element records, and what is recorded below it. -/
theorem laid_append {below : List Node} {ts : List Span} (h : site.Orderly source [.element head children])
    (hbelow : below = [] ∨ below = children) (hown : Laid (head.attributes.flatMap Attribute.carriers) ss)
    (hlaid : site.Orderly source below → Laid ((preorderOf below).flatMap Node.carriers) ts) :
    Laid ((preorderOf [.element head children]).flatMap Node.carriers) (ss ++ ts) := by
  have hsub : (preorderOf below).Sublist (preorderOf children) := by
    rcases hbelow with rfl | rfl
    · exact List.nil_sublist _
    · exact .refl _
  have hchildren : (preorderOf children).Sublist (preorderOf [.element head children]) := by
    rw [Markup.preorderOf_singleton, Node.preorder]
    exact List.sublist_cons_self ..
  have hordered := h.ordered
  rw [carriers_element] at hordered ⊢
  exact hown.append ((hlaid (h.sublist (hsub.trans hchildren))).mono (hsub.flatMap _).subset)
    (List.pairwise_append.1 hordered).2.2

end Orderly

/-- What a walk records. -/
theorem Walked.laid {found : Found} (h : site.Walked scope nodes found) (horderly : site.Orderly source nodes) :
    Laid ((preorderOf nodes).flatMap Node.carriers) (Usage.recordedSpans found.usages) := by
  induction h with
  | nil => exact .nil
  | @cons scope n nodes first rest _ _ ihn ihnodes =>
    have hpreorder : preorderOf (n :: nodes) = preorderOf [n] ++ preorderOf nodes := by simp [preorderOf]
    have hn := ihn (horderly.sublist (by rw [hpreorder]; exact List.sublist_append_left ..))
    have hnodes := ihnodes (horderly.sublist (by rw [hpreorder]; exact List.sublist_append_right ..))
    have hordered := horderly.ordered
    rw [hpreorder, List.flatMap_append] at hordered ⊢
    change Laid _ (Usage.recordedSpans (_ ++ _))
    rw [Usage.recordedSpans_append]
    exact hn.append hnodes (List.pairwise_append.1 hordered).2.2
  | comment => exact .nil
  | @text scope piece =>
    exact laid_bindings site scope horderly.fits horderly.first.1.1
  | @element scope head children nodes content hnodes _ ih =>
    have hown := @laid_element site scope head source children horderly.fits horderly.first.1 horderly.first.2 [] .nil
      fun e he => by cases he
    rw [List.flatMap_nil, List.append_nil] at hown
    change Laid _ (Usage.recordedSpans (_ ++ _))
    rw [Usage.recordedSpans_append]
    exact horderly.laid_append hnodes hown ih
  | @loop scope head children nodes opening content hrepeat hopening hnodes _ ih =>
    have hown := laid_openLoop horderly.fits horderly.first.1 horderly.first.2 hrepeat hopening
    change Laid _ (Usage.recordedSpans (_ ++ _))
    rw [Usage.recordedSpans_append]
    refine (horderly.laid_append hnodes hown ih).sublist ?_
    rw [List.append_assoc]
    exact (List.Sublist.refl _).append (recordedSpans_closeLoop_sublist scope head opening content)

/-! ### Splices -/

end Site

/-- Edits of ranges that are clear of each other never make a splice fail for an overlap. -/
theorem Mapped.ne_overlap_of_clear (h : (edits.map Edit.span).Pairwise Span.Clear) (id id' : String) (text : Mapped)
    (span : Span) (next : Nat) : splice id text edits ≠ .error (.overlap id' span next) := by
  have hcheck : Edit.check id text.content.toList edits ≠ .error (.overlap id' span next) := by
    by_cases hfit : ∀ e ∈ edits, Edit.Fits text.content.toList e
    · have hclear : ∀ e ∈ edits, ∀ e' ∈ edits, e ≠ e' → ¬ Edit.Collide e e' := by
        intro e he e' he' hne hcollide
        have hsymm : Std.Symm fun e e' : Edit => e.span.Clear e'.span := ⟨fun _ _ => Span.Clear.symm⟩
        have hclear : e.span.Clear e'.span := (List.pairwise_map.1 h).forall he he' hne
        unfold Span.Clear at hclear
        rcases hcollide with heq | ⟨i, hi, hi'⟩ | hinserts | hinserts
        · exact Span.Clear.ne hclear heq
        · omega
        · unfold Edit.InsertsInside at hinserts
          omega
        · unfold Edit.InsertsInside at hinserts
          omega
      rw [Edit.check_of_clear hfit hclear]
      exact fun h => by cases h
    · push Not at hfit
      obtain ⟨e, -, -, he⟩ := Edit.check_of_not_fits id hfit
      rw [he]
      exact fun h => by cases h
  intro hsplice
  rw [splice] at hsplice
  cases hchecked : Edit.check id text.content.toList edits with
  | error failure =>
    rw [hchecked] at hsplice
    cases hsplice
    exact hcheck hchecked
  | ok es =>
    simp only [hchecked, bind, Except.bind] at hsplice
    cases hmap : text.map with
    | none =>
      rw [hmap] at hsplice
      cases hsplice
    | some map =>
      rw [hmap] at hsplice
      dsimp only at hsplice
      cases hmappings : Mappings.decode map.mappings with
      | error problem =>
        rw [hmappings] at hsplice
        cases hsplice
      | ok mappings =>
        rw [hmappings] at hsplice
        cases hsplice

/-- The recording calls of a template name ranges that are clear of each other, if every element records once. So no
new names make a splice of these ranges, or of some of them, fail for an overlap. -/
theorem clear_of_extracts {id : String} (hfit : size site.source.toList < UInt32.size)
    (hread : Markup.read id site.source = .ok document) (h : site.Extracts document d) (ht : template ∈ d.templates)
    (honce : ∀ n ∈ preorderOf document.children, site.RecordsOnceAt n) (target : Fragment.Target) :
    ∃ spans : List Span, Fragment.ranges (Fragment.templateStatements target template) = spans.map some ∧
      spans.Pairwise Span.Clear ∧
      ∀ edits : List Edit, (edits.map Edit.span).Subperm spans →
        ∀ id id' text span next, Mapped.splice id text edits ≠ .error (.overlap id' span next) := by
  obtain ⟨scope, content, found, hcontent, -, hwalked, husages⟩ := Site.walked_of_extracts h ht
  obtain ⟨spans, hranges, hspans⟩ := Fragment.exists_ranges_templateStatements target template
  have horderly : site.Orderly site.source.toList document.children :=
    ⟨hfit, Markup.stands_of_read hread, honce, Markup.ordered_carriers hfit hread⟩
  have hclear : spans.Pairwise Span.Clear := by
    rw [husages] at hspans
    exact (hwalked.laid (horderly.sublist hcontent)).clear.sublist hspans
  refine ⟨spans, hranges, hclear, fun edits hedits id id' text span next => ?_⟩
  obtain ⟨ranges, hperm, hsub⟩ := hedits
  exact Mapped.ne_overlap_of_clear ((hclear.sublist hsub).perm hperm Span.Clear.symm) id id' text span next

/-- A listener for the changes of a property, in front of a loop, and the properties that may be renamed. -/
def changesSite (properties : List String) : Site where
  document := "d"
  source := "<dom-module id=\"x-a\"><template><x-b on-foo-changed=\"h\"></x-b>"
    ++ "<dom-repeat items=\"[[xs]]\" as=\"row\" sort=\"by\"></dom-repeat></template></dom-module>"
  schemas := ⟨[{ tag := "x-a", properties := [("xs", { renameable := true })], methods := [("h", true), ("by", true)] },
    { tag := "x-b", properties := properties.map fun name => (name, { renameable := true }) }],
    [("x-a", "XA"), ("x-b", "XB")]⟩
  options := { renameAliases := true }

/-- Whether the elements of the document that a site is about record once, and the ranges that are recorded for its
templates. -/
def Site.recorded? (site : Site) : Option (Bool × List (List (Option Span))) := do
  let document ← (Markup.read site.document site.source).toOption
  let d ← (site.extract document).toOption
  return (decide (∀ n ∈ preorderOf document.children, site.RecordsOnceAt n),
    d.templates.map fun t => Fragment.ranges (Fragment.templateStatements ⟨site.options.recordingObject, d.document⟩ t))

theorem Site.exists_of_recorded? {once : Bool} {ranges : List (List (Option Span))}
    (h : site.recorded? = some (once, ranges)) :
    ∃ document d, Markup.read site.document site.source = .ok document ∧ site.Extracts document d ∧
      ((∀ n ∈ preorderOf document.children, site.RecordsOnceAt n) ↔ once = true) ∧
      (d.templates.map fun t =>
        Fragment.ranges (Fragment.templateStatements ⟨site.options.recordingObject, d.document⟩ t)) = ranges := by
  simp only [recorded?, Option.bind_eq_bind, Option.bind_eq_some_iff, Option.pure_def, Option.some.injEq,
    Prod.mk.injEq] at h
  obtain ⟨document, hread, d, hd, rfl, rfl⟩ := h
  have hok {ε α : Type} {x : Except ε α} {y : α} (h : x.toOption = some y) : x = .ok y := by
    cases x with
    | error e => cases h
    | ok z => rw [Option.some.inj h]
  exact ⟨document, d, hok hread, .inl (hok hd), decide_eq_true_iff.symm, rfl⟩

/-- What the listener names and where, the name of the property in its event, and what the loop names. -/
theorem clear_of_extracts_changes : ∃ document d template,
    size (changesSite ["foo"]).source.toList < UInt32.size ∧ Markup.read "d" (changesSite ["foo"]).source = .ok document ∧ (changesSite ["foo"]).Extracts document d ∧
      template ∈ d.templates ∧ (∀ n ∈ preorderOf document.children, (changesSite ["foo"]).RecordsOnceAt n) ∧
      ∃ spans, spans = [⟨52, 53⟩, ⟨39, 42⟩, ⟨82, 84⟩, ⟨103, 105⟩, ⟨92, 95⟩] ∧
        Fragment.ranges (Fragment.templateStatements ⟨"polymerRename", d.document⟩ template) = spans.map some ∧
        ∀ edits : List Edit, (edits.map Edit.span).Subperm spans →
          ∀ id id' text span next, Mapped.splice id text edits ≠ .error (.overlap id' span next) := by
  obtain ⟨document, d, hread, h, honce, hranges⟩ := Site.exists_of_recorded?
    (show (changesSite ["foo"]).recorded? =
      some (true, [[⟨52, 53⟩, ⟨39, 42⟩, ⟨82, 84⟩, ⟨103, 105⟩, ⟨92, 95⟩].map some]) by decide +kernel)
  obtain ⟨template, ht, htemplate⟩ := List.mem_map.1 (hranges ▸ List.mem_singleton_self _)
  have hfit : size (changesSite ["foo"]).source.toList < UInt32.size := by decide +kernel
  obtain ⟨spans, hspans, -, hedits⟩ := clear_of_extracts hfit hread h ht (honce.2 rfl) ⟨"polymerRename", d.document⟩
  have heq := List.map_injective_iff.2 (Option.some_injective Span) (hspans.symm.trans htemplate)
  exact ⟨document, d, template, hfit, hread, h, ht, honce.2 rfl, spans, heq, hspans, hedits⟩

/-- Where the name of the listener is the one of a property as well, it is recorded around the name in its event, and
putting both back as they are fails. -/
theorem exists_extracts_overlap : ∃ document d template spans,
    Markup.read "d" (changesSite ["foo", "onFooChanged"]).source = .ok document ∧
      (changesSite ["foo", "onFooChanged"]).Extracts document d ∧ template ∈ d.templates ∧
      Fragment.ranges (Fragment.templateStatements ⟨"polymerRename", d.document⟩ template) = spans.map some ∧
      [⟨39, 42⟩, ⟨36, 50⟩].Subperm spans ∧
      Mapped.splice "d" ⟨(changesSite ["foo", "onFooChanged"]).source, none⟩
        [⟨⟨39, 42⟩, "foo"⟩, ⟨⟨36, 50⟩, "on-foo-changed"⟩] = .error (.overlap "d" ⟨36, 50⟩ 39) := by
  obtain ⟨document, d, hread, h, -, hranges⟩ := Site.exists_of_recorded?
    (show (changesSite ["foo", "onFooChanged"]).recorded? =
      some (false, [[⟨36, 50⟩, ⟨52, 53⟩, ⟨39, 42⟩, ⟨82, 84⟩, ⟨103, 105⟩, ⟨92, 95⟩].map some]) by decide +kernel)
  obtain ⟨template, ht, htemplate⟩ := List.mem_map.1 (hranges ▸ List.mem_singleton_self _)
  have hcheck : Edit.check "d" (changesSite ["foo", "onFooChanged"]).source.toList
      [⟨⟨39, 42⟩, "foo"⟩, ⟨⟨36, 50⟩, "on-foo-changed"⟩] = .error (.overlap "d" ⟨36, 50⟩ 39) := by
    rw [Edit.check, Edit.ordered, List.mergeSort_of_pairwise (by decide)]
    decide +kernel
  refine ⟨document, d, template, _, hread, h, ht, htemplate, List.subperm_of_subset (by decide) (by decide), ?_⟩
  rw [Mapped.splice, hcheck]
  rfl

end Relabel
