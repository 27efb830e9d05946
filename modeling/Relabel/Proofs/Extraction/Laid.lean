import Relabel.Proofs.Extraction.Bindings
import Relabel.Proofs.Fragment.Ranges

/-!
# What attributes and texts record

Every recorded span begins in a text, a value or the name of an attribute (`Laid`), and of two spans that begin
in different ones or come from different words of one it is clear which comes first. A value records its
bindings, or what it names as a whole, but only one of these: a listener is read only if the value has no
binding. A name is recorded as a whole, and in part if it listens for the changes of a property that may be
renamed; `Site.NamesTwice` is where both happen, and an attribute that is not so records spans that are clear of each
other (`laid_allAttributeUsages`). All of this takes words for byte offsets, so the text must end below the last
word.
-/

namespace Relabel
open Text
open Markup (Head Attribute Carrier)
variable {site : Site} {scope : Scope} {head : Head} {a : Attribute} {v : Piece} {c : Carrier} {cs ds : List Carrier}
  {s t s' t' : Span} {ss ts : List Span} {us : List Usage} {source : List Char}

/-! ### Spans in carriers -/

namespace Span

/-- No byte belongs to two spans, and they start at different bytes. -/
def Clear (s t : Span) : Prop :=
  s.stop ≤ t.start ∧ s.start < t.start ∨ t.stop ≤ s.start ∧ t.start < s.start

theorem Clear.symm (h : s.Clear t) : t.Clear s := Or.symm h

theorem Clear.apart (h : s.Clear t) : s.Apart t := h.imp And.left And.left

theorem Clear.ne (h : s.Clear t) : s ≠ t := by
  rintro rfl
  rcases h with ⟨-, h⟩ | ⟨-, h⟩ <;> exact Nat.lt_irrefl _ h

/-- A span starts at a byte of another one and does not go beyond it. -/
def BeginsIn (s t : Span) : Prop :=
  t.start ≤ s.start ∧ s.start < t.stop ∧ s.stop ≤ t.stop

theorem BeginsIn.clear (hs : s.BeginsIn s') (ht : t.BeginsIn t') (h : s'.stop ≤ t'.start) : s.Clear t := by
  obtain ⟨-, hs, hs'⟩ := hs
  exact .inl ⟨Nat.le_trans hs' (Nat.le_trans h ht.1), Nat.lt_of_lt_of_le hs (Nat.le_trans h ht.1)⟩

end Span

/-- Spans begin in some carriers and are clear of each other. -/
structure Laid (cs : List Carrier) (ss : List Span) : Prop where
  carried : ∀ s ∈ ss, ∃ c ∈ cs, s.BeginsIn c.piece.span
  clear : ss.Pairwise Span.Clear

namespace Laid

theorem nil : Laid cs [] := ⟨fun _ hs => absurd hs List.not_mem_nil, .nil⟩

theorem single (hc : c ∈ cs) (h : s.BeginsIn c.piece.span) : Laid cs [s] :=
  ⟨fun _ ht => ⟨c, hc, List.mem_singleton.1 ht ▸ h⟩, List.pairwise_singleton ..⟩

theorem sublist (h : Laid cs ss) (hsub : ts.Sublist ss) : Laid cs ts :=
  ⟨fun s hs => h.carried s (hsub.subset hs), h.clear.sublist hsub⟩

theorem mono (h : Laid cs ss) (hsub : cs ⊆ ds) : Laid ds ss :=
  ⟨fun s hs => (h.carried s hs).imp fun _ hc => ⟨hsub hc.1, hc.2⟩, h.clear⟩

theorem perm (h : Laid cs ss) (hperm : ss.Perm ts) : Laid cs ts :=
  ⟨fun s hs => h.carried s (hperm.mem_iff.2 hs), h.clear.perm hperm Span.Clear.symm⟩

theorem append_of_clear (hs : Laid cs ss) (ht : Laid cs ts) (h : ∀ s ∈ ss, ∀ t ∈ ts, s.Clear t) :
    Laid cs (ss ++ ts) := by
  refine ⟨fun s hmem => ?_, List.pairwise_append.2 ⟨hs.clear, ht.clear, h⟩⟩
  rcases List.mem_append.1 hmem with hmem | hmem
  · exact hs.carried s hmem
  · exact ht.carried s hmem

theorem append (hs : Laid cs ss) (ht : Laid ds ts) (h : ∀ c ∈ cs, ∀ d ∈ ds, c.piece.Before d.piece) :
    Laid (cs ++ ds) (ss ++ ts) := by
  refine (hs.mono (List.subset_append_left cs ds)).append_of_clear (ht.mono (List.subset_append_right cs ds)) ?_
  intro s hmem t hmem'
  obtain ⟨c, hc, hsc⟩ := hs.carried s hmem
  obtain ⟨d, hd, htd⟩ := ht.carried t hmem'
  exact hsc.clear htd (h c hc d hd)

/-- Pieces of a carrier one after another. -/
theorem of_pieces {ps : List Piece} (hordered : ps.Pairwise Piece.Ahead)
    (h : ∀ p ∈ ps, p.span.start ≤ p.span.stop ∧ p.span.BeginsIn c.piece.span) : Laid [c] (ps.map Piece.span) := by
  refine ⟨fun s hs => ?_, List.pairwise_map.2 (hordered.imp_of_mem fun hp _ hpq => ?_)⟩
  · obtain ⟨p, hp, rfl⟩ := List.mem_map.1 hs
    exact ⟨c, List.mem_singleton_self c, (h p hp).2⟩
  · unfold Piece.Ahead at hpq
    have := (h _ hp).1
    exact .inl ⟨by omega, by omega⟩

end Laid

/-! ### Bindings -/

section
variable {b' : Binding} {bs : List Binding} {u : Usage} {args : List Argument}

theorem Argument.Makes.spans_sublist (h : List.Forall₂ Argument.Makes args us) :
    (Usage.recordedSpans us).Sublist ((args.filterMap Argument.path?).map Piece.span) := by
  induction h with
  | nil => exact .refl _
  | @cons a u args us ha _ ih =>
    rw [Usage.recordedSpans_cons]
    cases a with
    | literal p =>
      obtain rfl : u = .literal p.text := ha
      exact ih
    | path p =>
      obtain ⟨q, rfl⟩ := ha
      rw [List.filterMap_cons_some (show (Argument.path p).path? = some p from rfl), List.map_cons, Usage.references,
        Fragment.map_span_named]
      split
      · exact ih.cons_cons _
      · exact ih.cons _

theorem Binding.Makes.spans_sublist (h : b'.Makes u) :
    (u.references.map Reference.span).Sublist (b'.names.map Piece.span) := by
  unfold Binding.Makes at h
  unfold Binding.names
  split at h
  · next p hp =>
    obtain ⟨q, rfl⟩ := h
    rw [hp, Usage.references, Fragment.map_span_named, Expression.names]
    split
    · exact .refl _
    · exact List.nil_sublist _
  · exact h.elim
  · next method args hcall =>
    obtain ⟨q, us, rfl, hargs⟩ := h
    rw [hcall, Usage.references, List.map_append, Fragment.map_span_named, Expression.names, List.map_cons]
    have hrest := Argument.Makes.spans_sublist hargs
    split
    · exact hrest.cons_cons _
    · exact hrest.cons _

theorem spans_sublist_of_makes (h : List.Forall₂ Binding.Makes bs us) :
    (Usage.recordedSpans us).Sublist ((bs.flatMap Binding.names).map Piece.span) := by
  induction h with
  | nil => exact .refl _
  | cons hb _ ih =>
    rw [Usage.recordedSpans_cons, List.flatMap_cons, List.map_append]
    exact hb.spans_sublist.append ih

end

namespace Site

/-- What the bindings of a text record. -/
theorem laid_bindings (site : Site) (scope : Scope) (hfit : size source < UInt32.size) (hv : v.Stands 0 source) :
    Laid [.text v] (Usage.recordedSpans (site.bindingUsages scope (Binding.findAll v.text v.span.start)).usages) := by
  have hinner := hv.fits (by omega)
  have hnames : Laid [.text v] (((Binding.findAll v.text v.span.start).flatMap Binding.names).map Piece.span) := by
    refine .of_pieces (Binding.ordered_names hinner) fun p hp => ?_
    obtain ⟨b, hb, hp⟩ := List.mem_flatMap.1 hp
    have hstands := Binding.stands_of_mem_names hb hp
    have hexpression := Binding.stands_scan hb
    have hinside := Expression.inside_of_mem_names hexpression hinner hp
    have hstop := Binding.stop_lt_of_mem_scan hinner hb
    have hsize := hstands.stop_eq hinner
    have hvalue := hv.stop_eq (by omega)
    unfold Piece.Inside at hinside
    refine ⟨by omega, hstands.start_le hinner, ?_, ?_⟩
    · simp only [Carrier.piece]
      omega
    · simp only [Carrier.piece]
      omega
  refine hnames.sublist ((spans_sublist_of_makes (forall₂_bindingUsages site scope _)).trans ?_)
  exact ((List.filter_sublist (p := Binding.isUsed)).flatMap _).map _

theorem beginsIn_trimmed (hfit : size source < UInt32.size) (hv : v.Stands 0 source) (hne : (trimmed v).text.isEmpty = false) :
    (trimmed v).span.BeginsIn v.span := by
  have hstands := Piece.stands_trimmedAt v.span.start v.text.toList
  rw [← trimmed] at hstands
  have hinside := hv.inside (by omega) hstands
  have hsize := hstands.stop_eq (hv.fits (by omega))
  have hpos : 0 < size (trimmed v).text.toList := by
    refine Nat.pos_of_ne_zero fun hzero => ?_
    rw [size_eq_zero, String.toList_eq_nil_iff] at hzero
    rw [hzero] at hne
    cases hne
  unfold Piece.Inside at hinside
  exact ⟨hinside.1, by omega, hinside.2⟩

/-! ### Attributes -/

/-- The name of an attribute is recorded as a whole, and besides for the property whose changes it listens
to. -/
def NamesTwice (site : Site) (head : Head) (a : Attribute) : Prop :=
  isListener a = true ∧ (site.schemas.typeName? head.effectiveTag).isSome = true ∧
    site.attributeRenameable head.effectiveTag (propertyOf (withoutDollar a.name.text.toList)) = true ∧
    (stripSuffix? "-changed".toList ((withoutDollar a.name.text.toList).drop 3)).any
      (fun changed => site.attributeRenameable head.effectiveTag (propertyOf changed)) = true

instance (site : Site) (head : Head) (a : Attribute) : Decidable (site.NamesTwice head a) :=
  inferInstanceAs (Decidable (_ ∧ _ ∧ _ ∧ _))

theorem recordedSpans_eq_nil (h : ∀ u ∈ us, u.references = []) : Usage.recordedSpans us = [] := by
  induction us with
  | nil => rfl
  | cons u us ih =>
    rw [Usage.recordedSpans_cons, h u List.mem_cons_self, ih fun v hv => h v (List.mem_cons_of_mem u hv)]
    rfl

theorem eq_of_mem_attributeNameUsage? {tag property : String} {start : Nat} {name : List Char} {u : Usage}
    (h : u ∈ site.attributeNameUsage? tag property start name) :
    (site.schemas.typeName? tag).isSome = true ∧
      u.references.map Reference.span = [.ofOffsets start (start + size name)] := by
  obtain ⟨type, htype, rfl⟩ := Option.map_eq_some_iff.1 h
  exact ⟨by rw [htype]; rfl, rfl⟩

theorem of_mem_ownName? {u : Usage} (h : u ∈ site.ownName? head a) :
    (site.schemas.typeName? head.effectiveTag).isSome = true ∧
      site.attributeRenameable head.effectiveTag (propertyOf (withoutDollar a.name.text.toList)) = true ∧
      u.references.map Reference.span =
        [.ofOffsets a.name.span.start (a.name.span.start + size (withoutDollar a.name.text.toList))] := by
  simp only [ownName?] at h
  split at h
  · next hrenameable =>
    obtain ⟨htype, hspan⟩ := eq_of_mem_attributeNameUsage? h
    exact ⟨htype, hrenameable, hspan⟩
  · cases h

theorem exists_changedUsages (site : Site) (scope : Scope) (head : Head) (a : Attribute) :
    (site.changedUsages scope head a).usages = [] ∨ ∃ changed,
      stripSuffix? "-changed".toList ((withoutDollar a.name.text.toList).drop 3) = some changed ∧
      site.attributeRenameable head.effectiveTag (propertyOf changed) = true ∧
      (site.changedUsages scope head a).usages =
        (site.attributeNameUsage? head.effectiveTag (propertyOf changed) (a.name.span.start + 3) changed).toList := by
  simp only [changedUsages]
  split
  · next changed schema hchanged hschema =>
    cases hproperty : schema.property? (propertyOf changed) with
    | none =>
      simp only
      split <;> exact .inl rfl
    | some info =>
      cases hrenameable : info.renameable with
      | false => exact .inl (by simp [hrenameable])
      | true =>
        refine .inr ⟨changed, hchanged, ?_, by simp [hrenameable]⟩
        simp [attributeRenameable, hschema, hproperty, hrenameable]
  · exact .inl rfl

theorem laid_ownName (hfit : size source < UInt32.size) (ha : a.On 0 source) :
    Laid [.name a.name] (Usage.recordedSpans (site.ownName? head a).toList) := by
  cases hown : site.ownName? head a with
  | none => exact .nil
  | some u =>
    obtain ⟨-, -, hspan⟩ := of_mem_ownName? hown
    obtain ⟨y, hname⟩ := exists_withoutDollar_append a.name.text.toList
    have hstop := ha.name.stop_eq (by omega)
    have hend := ha.name.fits (by omega)
    have hpos : 0 < size a.name.text.toList := by
      refine Nat.pos_of_ne_zero fun hzero => ha.named ?_
      rwa [size_eq_zero, String.toList_eq_nil_iff] at hzero
    have hsize := congrArg size hname
    rw [size_append] at hsize
    rw [Option.toList_some, Usage.recordedSpans_cons, hspan, Span.ofOffsets_of_lt (Nat.le_add_right ..) (by omega),
      Usage.recordedSpans_nil, List.append_nil]
    refine .single (List.mem_singleton_self _) ⟨Nat.le_refl _, ?_, ?_⟩
    · simp only [Carrier.piece]
      omega
    · simp only [Carrier.piece]
      omega

theorem laid_changedUsages (hfit : size source < UInt32.size) (ha : a.On 0 source) (hon : isListener a = true) :
    Laid [.name a.name] (Usage.recordedSpans (site.changedUsages scope head a).usages) := by
  rcases exists_changedUsages site scope head a with hnil | ⟨changed, hchanged, -, husages⟩
  · rw [hnil]
    exact .nil
  rw [husages]
  cases hname : site.attributeNameUsage? head.effectiveTag (propertyOf changed) (a.name.span.start + 3) changed with
  | none => exact .nil
  | some u =>
    obtain ⟨-, hspan⟩ := eq_of_mem_attributeNameUsage? hname
    obtain ⟨x, y, htext, hthree⟩ := exists_changed_append hon hchanged
    have hstop := ha.name.stop_eq (by omega)
    have hend := ha.name.fits (by omega)
    have hsuffix : size "-changed".toList = 8 := rfl
    rw [htext, size_append, size_append, size_append] at hstop hend
    rw [Option.toList_some, Usage.recordedSpans_cons, hspan, Span.ofOffsets_of_lt (Nat.le_add_right ..) (by omega),
      Usage.recordedSpans_nil, List.append_nil]
    refine .single (List.mem_singleton_self _) ⟨Nat.le_add_right .., ?_, ?_⟩
    · simp only [Carrier.piece]
      omega
    · simp only [Carrier.piece]
      omega

/-- What the name of a listener records: the whole name or a part of it. -/
theorem laid_listenerName (hfit : size source < UInt32.size) (ha : a.On 0 source) (hon : isListener a = true) (honce : ¬ site.NamesTwice head a) :
    Laid [.name a.name] (Usage.recordedSpans (site.ownName? head a).toList ++
      Usage.recordedSpans (site.changedUsages scope head a).usages) := by
  cases hown : site.ownName? head a with
  | none => exact laid_changedUsages hfit ha hon
  | some u =>
    obtain ⟨htype, hrenameable, -⟩ := of_mem_ownName? hown
    have hnone : (site.changedUsages scope head a).usages = [] := by
      rcases exists_changedUsages site scope head a with hnil | ⟨changed, hchanged, hproperty, -⟩
      · exact hnil
      · exact absurd ⟨hon, htype, hrenameable, by rw [hchanged]; exact hproperty⟩ honce
    rw [hnone, ← hown, Usage.recordedSpans_nil, List.append_nil]
    exact laid_ownName hfit ha

theorem laid_value (site : Site) (scope : Scope) (hfit : size source < UInt32.size) (ha : a.On 0 source) :
    Laid (a.value.map Carrier.text).toList (Usage.recordedSpans (site.bindingUsages scope a.bindings).usages) := by
  cases hv : a.value with
  | none =>
    have hnil : a.bindings = [] := bindings_eq_nil (by rw [hv]; rfl)
    rw [hnil]
    exact .nil
  | some v =>
    rw [bindings_of_value hv]
    exact laid_bindings site scope hfit (ha.value hv)

theorem findAll_eq_nil (h : (Binding.find? v.text v.span.start).isSome = false) :
    Binding.findAll v.text v.span.start = [] := by
  simpa [Binding.find?] using h

/-- A listener is read from a value without bindings. -/
theorem exists_listenerUsages (site : Site) (scope : Scope) (tag : String) (a : Attribute) :
    (site.listenerUsages scope tag a).usages = [] ∨ ∃ v q, a.value = some v ∧ (trimmed v).text.isEmpty = false ∧
      (Binding.find? v.text v.span.start).isSome = false ∧
      (site.listenerUsages scope tag a).usages = [.listener (trimmed v).span (trimmed v).text q] := by
  unfold listenerUsages
  split
  · exact .inl rfl
  · next v hv =>
    dsimp only
    split
    · exact .inl rfl
    · next hread =>
      rw [Bool.or_eq_true, not_or, Bool.not_eq_true, Bool.not_eq_true] at hread
      split
      · next q _ => exact .inr ⟨v, q, hv, hread.1, hread.2, rfl⟩
      · exact .inr ⟨v, _, hv, hread.1, hread.2, rfl⟩

/-- What the value of a listener records: its bindings or the listener. -/
theorem laid_listenerValue (site : Site) (scope : Scope) (hfit : size source < UInt32.size) (ha : a.On 0 source) (tag : String) :
    Laid (a.value.map Carrier.text).toList (Usage.recordedSpans (site.bindingUsages scope a.bindings).usages ++
      Usage.recordedSpans (site.listenerUsages scope tag a).usages) := by
  rcases exists_listenerUsages site scope tag a with hnil | ⟨v, q, hv, hne, hfind, husages⟩
  · rw [hnil, Usage.recordedSpans_nil, List.append_nil]
    exact laid_value site scope hfit ha
  · have hspans : (Usage.recordedSpans [.listener (trimmed v).span (trimmed v).text q]).Sublist
        [(trimmed v).span] := by
      rw [Usage.recordedSpans_cons, Usage.references, Fragment.map_span_named, Usage.recordedSpans_nil,
        List.append_nil]
      split
      · exact .refl _
      · exact List.nil_sublist _
    have hbound : (site.bindingUsages scope []).usages = [] := rfl
    have hbegins : (trimmed v).span.BeginsIn (Carrier.text v).piece.span := beginsIn_trimmed hfit (ha.value hv) hne
    rw [husages, bindings_of_value hv, findAll_eq_nil hfind, hbound, Usage.recordedSpans_nil, List.nil_append, hv]
    exact (Laid.single (List.mem_singleton_self _) hbegins).sublist hspans

/-- The name of an attribute stands before its value. -/
theorem laid_carriers (hfit : size source < UInt32.size) (ha : a.On 0 source) (hname : Laid [.name a.name] ss)
    (hvalue : Laid (a.value.map Carrier.text).toList ts) : Laid a.carriers (ss ++ ts) := by
  refine hname.append hvalue fun c hc d hd => ?_
  obtain rfl := List.mem_singleton.1 hc
  obtain ⟨v, hv, rfl⟩ := Option.map_eq_some_iff.1 (Option.mem_toList.1 hd)
  exact Nat.le_of_lt (ha.name_lt_value (by omega) hv)

/-- What an attribute records. -/
theorem laid_allAttributeUsages (site : Site) (scope : Scope) (hfit : size source < UInt32.size)
    (ha : a.On 0 source) (honce : ¬ site.NamesTwice head a) :
    Laid a.carriers (Usage.recordedSpans (site.allAttributeUsages scope head a).usages) := by
  obtain ⟨flow, husages, hflow, -⟩ := exists_attributeUsages site scope head a
  have hspans : Usage.recordedSpans (site.attributeUsages scope head a).usages =
      Usage.recordedSpans (site.ownName? head a).toList ++
        Usage.recordedSpans (site.bindingUsages scope a.bindings).usages := by
    have hnil : Usage.recordedSpans flow = [] := by
      refine recordedSpans_eq_nil fun u hu => ?_
      have hkind := hflow u hu
      cases u <;> first | rfl | cases hkind
    rw [husages, Usage.recordedSpans_append, Usage.recordedSpans_append, hnil, List.append_nil]
  simp only [allAttributeUsages]
  split
  · next hon =>
    have hlaid := laid_carriers hfit ha (@laid_listenerName site scope _ _ _ hfit ha hon honce)
      (laid_listenerValue site scope hfit ha head.effectiveTag)
    have hsub := (Usage.recordedSpans_filter_sublist (! isDataFlow ·) (site.attributeUsages scope head a).usages).append
      (.refl (Usage.recordedSpans (site.listenerUsages scope head.effectiveTag a).usages))
    have hsub := hsub.append (.refl (Usage.recordedSpans (site.changedUsages scope head a).usages))
    rw [← Usage.recordedSpans_append, ← Usage.recordedSpans_append, hspans] at hsub
    refine (hlaid.perm ?_).sublist hsub
    -- what the event of the listener names comes last
    rw [List.append_assoc, List.append_assoc, List.append_assoc]
    refine List.Perm.append_left _ ?_
    rw [← List.append_assoc (Usage.recordedSpans (site.bindingUsages scope a.bindings).usages)]
    exact List.perm_append_comm
  · rw [hspans]
    exact laid_carriers hfit ha (laid_ownName hfit ha) (laid_value site scope hfit ha)

/-- An attribute that binds nothing and is no listener records at most its name. -/
theorem laid_name_of_unbound (site : Site) (scope : Scope) (head : Head) (hfit : size source < UInt32.size)
    (ha : a.On 0 source) (hon : isListener a = false)
    (hbound : a.bindings.any Binding.isUsed = false) :
    Laid [.name a.name] (Usage.recordedSpans (site.allAttributeUsages scope head a).usages) := by
  obtain ⟨flow, husages, -, hflow⟩ := exists_attributeUsages site scope head a
  have hnil : (site.bindingUsages scope a.bindings).usages = [] := by
    have hmakes := forall₂_bindingUsages site scope a.bindings
    rw [List.filter_eq_nil_iff.2 (by simpa using hbound)] at hmakes
    exact List.forall₂_nil_left_iff.1 hmakes
  rw [hnil, hflow hnil, List.append_nil, List.append_nil] at husages
  simp only [allAttributeUsages, hon, Bool.false_eq_true, if_false]
  rw [husages]
  exact laid_ownName hfit ha

end Site

end Relabel
