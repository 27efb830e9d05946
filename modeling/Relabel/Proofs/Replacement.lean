import Relabel.Proofs.Extraction.Apart
import Relabel.Proofs.Recovery.RoundTrip
import Relabel.Proofs.Splice.Unchanged
import Relabel.Replacement

/-!
# A program that nobody renamed changes nothing

The fragments of an extraction, put together and given back as they are, leave every document as it is
(`replaceAll_of_extractAll`). The program of several documents says what the programs of each say
(`SaysAll`); each document finds its own references in it, with the names that it has at their spans; and
edits that put back what is there can be carried out.
-/

namespace Relabel
open Script
open Text (size slice? Hyphened)
open Markup (Document)
open Fragment (Statement Target Emits programTree programText recordingsOf StatementsOk TameAll)
variable {object program : String} {ss ss' : List Statement} {rs rs' : List Renaming} {target : Target}
  {t : Tree} {us : List DocumentUsages} {u : DocumentUsages} {d : SourceDocument}
  {documents : List SourceDocument} {schemas : SchemaTable} {options : Options} {r : Recovery}

/-! ### The program of several documents -/

/-- Statements that are read as what they are, and whose recording calls ask for some renamings. -/
structure SaysAll (object : String) (ss : List Statement) (rs : List Renaming) : Prop where
  ok : StatementsOk ss
  tame : TameAll object ss
  recordings : List.Forall₂ (fun p r => Says object p.item.tree r) (recordingsOf ss) rs

namespace SaysAll

theorem nil : SaysAll object [] [] := ⟨trivial, trivial, .nil⟩

theorem append (h : SaysAll object ss rs) (h' : SaysAll object ss' rs') :
    SaysAll object (ss ++ ss') (rs ++ rs') := by
  refine ⟨Fragment.statementsOk_append h.ok h'.ok, Fragment.tameAll_append h.tame h'.tame, ?_⟩
  rw [Fragment.recordingsOf_append]
  exact List.rel_append h.recordings h'.recordings

/-- The renamings are what recovery reads. -/
theorem read (h : SaysAll object ss rs) (ht : Script.read? program = some t)
    (hbare : t.bare = programTree ss) : ∃ r, Recovery.read object program = .ok r ∧ Settle r.calls rs := by
  obtain ⟨hparts, -⟩ := recordingParts_of_programTree h.tame hbare
  have hmatch : List.Forall₂ (Says object) ((recordingParts object [t]).map Tree.bare) rs := by
    rw [hparts, List.forall₂_map_left_iff]
    exact h.recordings
  rw [List.forall₂_map_left_iff] at hmatch
  exact read_of_says ht (hmatch.imp fun u r hr => says_iff_bare.1 hr)

end SaysAll

/-- The renamings that the references of a document ask for where nothing was renamed. -/
def DocumentUsages.outcomes (u : DocumentUsages) : List Renaming :=
  u.references.map fun reference => reference.outcome u.document id id

theorem Fragment.Emits.saysAll {references : List Reference} (h : Emits target ss references) :
    SaysAll target.object ss (references.map fun reference => reference.outcome target.document id id) := by
  refine ⟨h.ok, h.tame, List.forall₂_map_right_iff.2 ?_⟩
  refine (h.answers id keepsFunctions_id).imp fun p reference hanswers => ?_
  have hsays := hanswers id keepsObject_id
  rwa [Tree.renamed_id] at hsays

theorem saysAll_programs
    (h : ∀ u ∈ us, Emits ⟨object, u.document⟩ (Fragment.program object u).toList u.references) :
    SaysAll object (us.filterMap (Fragment.program object)) (us.flatMap DocumentUsages.outcomes) := by
  induction us with
  | nil => exact .nil
  | cons u us ih =>
    have hhead := (h u (List.mem_cons_self ..)).saysAll
    have hrest := ih fun v hv => h v (List.mem_cons_of_mem u hv)
    rw [List.filterMap_eq_flatMap_toList] at hrest ⊢
    exact hhead.append hrest

/-- The fragments of some documents are the text of their programs. -/
theorem combine_filterMap_ofUsages? (object : String) (us : List DocumentUsages) :
    Fragment.combine (us.filterMap (Fragment.ofUsages? object)) =
      Fragment.joined "\n" (((us.filterMap (Fragment.program object)).map fun p => [p]).map programText) := by
  rw [Fragment.combine, List.map_filterMap, List.map_map, List.map_filterMap]
  congr 2
  funext u
  rw [Fragment.ofUsages?, Option.map_map]
  rfl

/-- Well-formed programs are read as what they say, one after another. -/
theorem read?_combine (h : ∀ u ∈ us, StatementsOk (Fragment.program object u).toList) :
    ∃ t, Script.read? (Fragment.combine (us.filterMap (Fragment.ofUsages? object))) = some t ∧
      t.bare = programTree (us.filterMap (Fragment.program object)) := by
  have hprograms : ((us.filterMap (Fragment.program object)).map fun p => [p]).flatten =
      us.filterMap (Fragment.program object) := by
    rw [← List.flatMap_def, List.flatMap_singleton']
  have hok : ∀ ss ∈ (us.filterMap (Fragment.program object)).map fun p => [p], StatementsOk ss := by
    intro ss hss
    obtain ⟨p, hp, rfl⟩ := List.mem_map.1 hss
    obtain ⟨u, hu, hup⟩ := List.mem_filterMap.1 hp
    simpa [hup] using h u hu
  have hplaced : Fragment.Placed (us.filterMap (Fragment.program object)) := by
    intro p hp
    obtain ⟨u, -, hup⟩ := List.mem_filterMap.1 hp
    exact Fragment.placed_of_program hup p (List.mem_singleton_self p)
  obtain ⟨t, ht, hbare⟩ := Fragment.read?_joined hok (by rwa [hprograms])
  rw [hprograms] at hbare
  rw [combine_filterMap_ofUsages?]
  exact ⟨t, ht, hbare⟩

theorem read_combine
    (h : ∀ u ∈ us, Emits ⟨object, u.document⟩ (Fragment.program object u).toList u.references) :
    ∃ r, Recovery.read object (Fragment.combine (us.filterMap (Fragment.ofUsages? object))) = .ok r ∧
      Settle r.calls (us.flatMap DocumentUsages.outcomes) := by
  obtain ⟨t, ht, hbare⟩ := read?_combine fun u hu => (h u hu).ok
  exact (saysAll_programs h).read ht hbare

/-! ### Documents -/

theorem DocumentUsages.document_of_mem_outcomes {x : Renaming} (hx : x ∈ u.outcomes) :
    x.document = u.document := by
  obtain ⟨reference, -, rfl⟩ := List.mem_map.1 hx
  rfl

theorem DocumentUsages.filter_outcomes (u : DocumentUsages) :
    u.outcomes.filter (·.document == u.document) = u.outcomes :=
  List.filter_eq_self.2 fun _ hx => beq_iff_eq.2 (document_of_mem_outcomes hx)

/-- Of the renamings of several documents, those for one of them are its own. -/
theorem filter_flatMap_outcomes (hids : (us.map (·.document)).Nodup) (hu : u ∈ us) :
    (us.flatMap DocumentUsages.outcomes).filter (·.document == u.document) = u.outcomes := by
  induction us with
  | nil => cases hu
  | cons v us ih =>
    obtain ⟨hnot, hids⟩ := List.nodup_cons.1 hids
    rw [List.flatMap_cons, List.filter_append]
    rcases List.mem_cons.1 hu with rfl | hu
    · have hrest : (us.flatMap DocumentUsages.outcomes).filter (·.document == u.document) = [] := by
        refine List.filter_eq_nil_iff.2 fun x hx heq => ?_
        obtain ⟨w, hw, hx⟩ := List.mem_flatMap.1 hx
        rw [DocumentUsages.document_of_mem_outcomes hx] at heq
        exact hnot (List.mem_map.2 ⟨w, hw, beq_iff_eq.1 heq⟩)
      rw [hrest, u.filter_outcomes, List.append_nil]
    · have hhead : v.outcomes.filter (·.document == u.document) = [] := by
        refine List.filter_eq_nil_iff.2 fun x hx heq => ?_
        rw [DocumentUsages.document_of_mem_outcomes hx] at heq
        exact hnot (List.mem_map.2 ⟨u, hu, (beq_iff_eq.1 heq).symm⟩)
      rw [hhead, ih hids hu, List.nil_append]

/-- What the usages of a document have to be like for their names to come back. -/
structure DocumentUsages.Keeps (object : String) (content : List Char) (u : DocumentUsages) : Prop where
  named : u.Named object
  hyphened : ∀ span, u.NamesAttribute span → ∀ text ∈ slice? content span, Hyphened text
  apart : ∀ s t, u.NamesAttribute s → u.NamesAttribute t → s = t ∨ s.Apart t

theorem extracts_of_extract (h : d.extract schemas options = .ok u) :
    ∃ site document, site.source = d.content ∧ Markup.read d.id site.source = .ok document ∧
      Site.Extracts site document u ∧ u.document = d.id := by
  simp only [SourceDocument.extract, bind, Except.bind] at h
  split at h
  · cases h
  · next document hread =>
    have hid : document.id = d.id := by
      unfold Markup.read at hread
      split at hread
      · rw [← Except.ok.inj hread]
      · cases hread
    refine ⟨⟨d.id, d.content, schemas, options⟩, document, rfl, hread, .inl h, ?_⟩
    simp only [Site.extract, bind, Except.bind] at h
    split at h
    · cases h
    · rw [← Except.ok.inj h, ← hid]

theorem emits_of_extract (h : d.extract schemas options = .ok u) (hu : u.Named object) :
    Emits ⟨object, u.document⟩ (Fragment.program object u).toList u.references := by
  obtain ⟨site, document, -, hread, hextracts, -⟩ := extracts_of_extract h
  exact Fragment.emits_toList_program hu.isVariable_object fun t ht =>
    templateSound_of_extracts hread hextracts hu ht

/-- A document is as before after the renamings that its own references ask for. -/
theorem exists_replace (h : d.extract schemas options = .ok u)
    (hsize : size d.content.toList < UInt32.size)
    (hmap : ∀ map ∈ d.map, ∃ mappings, Mappings.decode map.mappings = .ok mappings)
    (hu : u.Keeps object d.content.toList) (hr : r.renamings d.id = .ok u.outcomes) :
    ∃ x, r.replace d = .ok x ∧ x.document = d.id ∧ x.text.content = d.content := by
  obtain ⟨site, document, hsource, hread, hextracts, hid⟩ := extracts_of_extract h
  have hown : u.outcomes.filter (·.document == d.id) = u.outcomes := hid ▸ u.filter_outcomes
  have hedits {e : Edit} (he : e ∈ u.outcomes.map Renaming.edit) :
      ∃ reference ∈ u.references, e = ⟨reference.span, reference.name id id⟩ := by
    obtain ⟨x, hx, rfl⟩ := List.mem_map.1 he
    obtain ⟨reference, hreference, rfl⟩ := List.mem_map.1 hx
    exact ⟨reference, hreference, rfl⟩
  have hsplice : ∃ text, d.splice (u.outcomes.map Renaming.edit) = .ok text ∧ text.content = d.content := by
    refine Mapped.exists_splice_unchanged hmap (fun e he => ?_) fun a ha b hb => ?_
    · obtain ⟨reference, hreference, rfl⟩ := hedits he
      have hslice := slice?_of_mem_references hread (hsource ▸ hsize) hextracts hu.named
        (hsource ▸ hu.hyphened) hreference
      rwa [hsource] at hslice
    · obtain ⟨reference, hreference, rfl⟩ := hedits ha
      obtain ⟨reference', hreference', rfl⟩ := hedits hb
      exact eq_or_apart_of_mem_references (hsource ▸ hsize) hread hextracts hu.named hu.apart hreference hreference'
  obtain ⟨text, htext, hcontent⟩ := hsplice
  refine ⟨⟨d.id, text, u.outcomes.length⟩, ?_, rfl, hcontent⟩
  rw [Recovery.replace, hr]
  simp only [bind, Except.bind, SourceDocument.rename, hown, htext]
  rfl

theorem outcomes_of_replace
    (h : ∀ d ∈ documents, ∃ x, r.replace d = .ok x ∧ x.document = d.id ∧ x.text.content = d.content) :
    (documents.map r.replace).filterMap failure? = [] ∧
      ((documents.map r.replace).filterMap replaced?).map (fun x => (x.document, x.text.content)) =
        documents.map fun d => (d.id, d.content) := by
  induction documents with
  | nil => exact ⟨rfl, rfl⟩
  | cons d documents ih =>
    obtain ⟨x, hx, hid, hcontent⟩ := h d (List.mem_cons_self ..)
    obtain ⟨hfailures, hdocuments⟩ := ih fun d' hd' => h d' (List.mem_cons_of_mem d hd')
    simp only [List.map_cons, List.filterMap_cons, hx, failure?, replaced?, hfailures, hdocuments, hid,
      hcontent, and_self]

/-- The fragments of an extraction come from the usages of each document. -/
theorem exists_of_extractAll {extracted : Extracted} (h : extractAll documents schemas options = .ok extracted) :
    ∃ us : List DocumentUsages, documents.map (·.extract schemas options) = us.map Except.ok ∧
      extracted.fragments = us.filterMap (Fragment.ofUsages? options.recordingObject) := by
  simp only [extractAll, bind, Except.bind] at h
  split at h
  · cases h
  · next us hus =>
    obtain rfl := Except.ok.inj h
    exact ⟨us, map_of_mapM_eq_ok hus, rfl⟩

theorem documents_of_extract (h : documents.map (·.extract schemas options) = us.map Except.ok) :
    us.map (·.document) = documents.map (·.id) := by
  induction documents generalizing us with
  | nil => rw [List.map_eq_nil_iff.1 h.symm, List.map_nil, List.map_nil]
  | cons d documents ih =>
    cases us with
    | nil => cases h
    | cons u us =>
      obtain ⟨hextract, h⟩ := List.cons.inj h
      obtain ⟨-, -, -, -, -, hid⟩ := extracts_of_extract hextract
      rw [List.map_cons, List.map_cons, hid, ih h]

/-- If names are identifiers and attributes are written with hyphens and do not overlap, the fragments of
some documents, given back as they are, fail for no document and leave all of them as they are, in their
order. -/
theorem replaceAll_of_extractAll {extracted : Extracted} (hids : (documents.map (·.id)).Nodup)
    (hsize : ∀ d ∈ documents, size d.content.toList < UInt32.size)
    (hmaps : ∀ d ∈ documents, ∀ map ∈ d.map, ∃ mappings, Mappings.decode map.mappings = .ok mappings)
    (h : extractAll documents schemas options = .ok extracted)
    (hkeeps : ∀ d ∈ documents, ∀ u, d.extract schemas options = .ok u →
      u.Keeps options.recordingObject d.content.toList) :
    ∃ r, replaceAll documents (Fragment.combine extracted.fragments) options = .ok r ∧ r.failures = [] ∧
      r.documents.map (fun x => (x.document, x.text.content)) =
        documents.map fun d => (d.id, d.content) := by
  obtain ⟨us, hus, hfragments⟩ := exists_of_extractAll h
  have hdocument : ∀ u ∈ us, ∃ d ∈ documents, d.extract schemas options = .ok u := fun u hu =>
    List.mem_map.1 (hus ▸ List.mem_map_of_mem hu)
  have hextract : ∀ d ∈ documents, ∃ u ∈ us, d.extract schemas options = .ok u := fun d hd => by
    obtain ⟨u, hu, heq⟩ := List.mem_map.1 (hus ▸ List.mem_map_of_mem hd)
    exact ⟨u, hu, heq.symm⟩
  have hids' : (us.map (·.document)).Nodup := documents_of_extract hus ▸ hids
  obtain ⟨r, hr, hsettle⟩ := read_combine fun u hu => by
    obtain ⟨d, hd, hextract⟩ := hdocument u hu
    exact emits_of_extract hextract (hkeeps d hd u hextract).named
  have hreplace : ∀ d ∈ documents, ∃ x, r.replace d = .ok x ∧ x.document = d.id ∧
      x.text.content = d.content := by
    intro d hd
    obtain ⟨u, hu, hextract⟩ := hextract d hd
    obtain ⟨-, -, -, -, -, hid⟩ := extracts_of_extract hextract
    refine exists_replace hextract (hsize d hd) (hmaps d hd) (hkeeps d hd u hextract) ?_
    rw [hsettle.renamings, ← hid, filter_flatMap_outcomes hids' hu]
  obtain ⟨hfailures, hdocuments⟩ := outcomes_of_replace hreplace
  have hrun : replaceAll documents (Fragment.combine extracted.fragments) options =
      .ok ⟨(documents.map r.replace).filterMap replaced?, (documents.map r.replace).filterMap failure?⟩ := by
    rw [replaceAll, hfragments, hr]
    rfl
  exact ⟨_, hrun, hfailures, hdocuments⟩

/-- A component whose property flows into a property of another tag. -/
def boundDocument : SourceDocument :=
  ⟨"d", "<dom-module id=\"x-a\"><template><x-b my-c=\"[[p]]\"></x-b></template></dom-module>", none⟩

def boundSite : Site where
  document := "d"
  source := boundDocument.content
  schemas := ⟨[
    { tag := "x-a", typeName := some "XA", properties := [("p", { renameable := true })] },
    { tag := "x-b", typeName := some "XB", properties := [("myC", { renameable := true })] }], []⟩
  options := {}

def boundScope : Scope where
  owner := "x-a"
  schema := boundSite.schemas.get? "x-a"

def boundAttribute : Markup.Attribute :=
  ⟨⟨"my-c", ⟨36, 40⟩⟩, some ⟨"[[p]]", ⟨42, 47⟩⟩⟩

def boundBinding : Binding :=
  ⟨.oneWay, false, ⟨"p", ⟨44, 45⟩⟩, none, ⟨42, 47⟩⟩

def boundHead : Markup.Head :=
  ⟨"x-b", [boundAttribute], ⟨31, 55⟩, ⟨31, 49⟩⟩

def boundModule : Markup.Element :=
  (⟨"dom-module", [⟨⟨"id", ⟨12, 14⟩⟩, some ⟨"x-a", ⟨16, 19⟩⟩⟩], ⟨0, 79⟩, ⟨0, 21⟩⟩,
    [.element ⟨"template", [], ⟨21, 66⟩, ⟨21, 31⟩⟩ [.element boundHead []]])

def boundTemplate : TemplateUsages where
  owner := "x-a"
  typeName := "XA"
  usages := [.attributeName ⟨36, 40⟩ "x-b" "XB" "myC", .path ⟨44, 45⟩ "p" (.component true) .expression,
    .dataFlow ⟨42, 47⟩ "x-b" "XB" "myC" (.this "p") false]

theorem read_bound :
    Markup.read "d" boundDocument.content = .ok ⟨"d", [.element boundModule.1 boundModule.2]⟩ := by
  have htokens : (Markup.tokens 0 boundDocument.content.toList).toOption = some
      [.startTag { boundModule.1 with span := ⟨0, 21⟩ } false,
        .startTag ⟨"template", [], ⟨21, 31⟩, ⟨21, 31⟩⟩ false,
        .startTag { boundHead with span := ⟨31, 49⟩ } false,
        .endTag "x-b" ⟨49, 55⟩, .endTag "template" ⟨55, 66⟩, .endTag "dom-module" ⟨66, 79⟩] := by
    decide +kernel
  cases h : Markup.tokens 0 boundDocument.content.toList with
  | error e => rw [h] at htokens; cases htokens
  | ok ts =>
    rw [h] at htokens
    obtain rfl := Option.some.inj htokens
    exact Markup.read_eq_ok h "d"

theorem allAttributeUsages_bound :
    boundSite.allAttributeUsages boundScope boundHead boundAttribute = ⟨boundTemplate.usages, []⟩ := by
  have hlistener : Site.isListener boundAttribute = false := by decide +kernel
  have hproperty : Site.propertyOf (Site.withoutDollar boundAttribute.name.text.toList) = "myC" := by
    decide +kernel
  have hrenameable : boundSite.attributeRenameable boundHead.effectiveTag "myC" = true := by decide +kernel
  have htype : boundSite.schemas.typeName? boundHead.effectiveTag = some "XB" := by decide +kernel
  have hname : boundSite.attributeNameUsage? boundHead.effectiveTag "myC" boundAttribute.name.span.start
      (Site.withoutDollar boundAttribute.name.text.toList) =
        some (.attributeName ⟨36, 40⟩ "x-b" "XB" "myC") := by
    have hfour : size (Site.withoutDollar boundAttribute.name.text.toList) = 4 := by decide +kernel
    rw [Site.attributeNameUsage?, htype, hfour]
    rfl
  have hvalue : boundAttribute.value.filter (3 ≤ ·.text.utf8ByteSize) = some ⟨"[[p]]", ⟨42, 47⟩⟩ := by
    decide +kernel
  have hbindings : Binding.findAll "[[p]]" 42 = [boundBinding] := by decide +kernel
  have hbound : boundSite.bindingUsages boundScope [boundBinding] =
      .one (.path ⟨44, 45⟩ "p" (.component true) .expression) := by
    have hexpression : Expression.ofPiece boundBinding.expression = .path ⟨"p", ⟨44, 45⟩⟩ := by
      decide +kernel
    have hlookup : boundScope.lookup "p" = some (.component "p" true "x-a") := by decide +kernel
    simp [Site.bindingUsages, Site.bindingUsage?, hexpression, Site.pathUsage, hlookup, Found.one,
      Qualifier.ofResolution]
  have hflow : boundSite.dataFlow? boundHead.effectiveTag "myC" ⟨"[[p]]", ⟨42, 47⟩⟩ [boundBinding]
      [.path ⟨44, 45⟩ "p" (.component true) .expression] =
        some (.dataFlow ⟨42, 47⟩ "x-b" "XB" "myC" (.this "p") false) := by
    have htrimmed : (Site.trimmed ⟨"[[p]]", ⟨42, 47⟩⟩).span = ⟨42, 47⟩ := by decide +kernel
    rw [Site.dataFlow?, htype, htrimmed]
    rfl
  simp only [Site.allAttributeUsages, hlistener, Site.attributeUsages, hproperty, hrenameable, hvalue,
    hbindings, hbound, hname, if_true, or_true, Found.one, hflow]
  rfl

theorem walk_bound : boundSite.walk boundScope [.element boundHead []] = .ok ⟨boundTemplate.usages, []⟩ := by
  have hlocation : Markup.checkLocation boundSite.document boundSite.source boundHead.tag boundAttribute =
      .ok () := by
    decide +kernel
  have hraw : boundSite.options.isRawText boundHead.tag = false := by decide +kernel
  have hrepeat : boundHead.isRepeat = false := by decide +kernel
  have hattributes : boundSite.attributesOf boundScope boundHead =
      .ok [(boundAttribute, ⟨boundTemplate.usages, []⟩)] := by
    rw [Site.attributesOf, show boundHead.attributes = [boundAttribute] from rfl, List.mapM_cons,
      List.mapM_nil, hlocation, allAttributeUsages_bound]
    rfl
  simp only [Site.walk, Site.walkNode, hattributes, hraw, hrepeat, bind, Except.bind]
  rfl

theorem extract_bound :
    boundDocument.extract boundSite.schemas boundSite.options = .ok ⟨"d", [boundTemplate], []⟩ := by
  have hmodule : boundSite.module boundModule = .ok (some (boundTemplate, [])) := by
    have hid : (boundModule.1.attributeValue? "id").filter (! ·.isEmpty) = some "x-a" := by decide +kernel
    have hcontains : boundSite.schemas.contains "x-a" = true := by decide +kernel
    have htype : boundSite.schemas.typeName? "x-a" = some "XA" := by decide +kernel
    have htemplate : Site.templateIn? boundModule.2 = some [.element boundHead []] := rfl
    simp only [Site.module, hid, hcontains, if_true, htemplate, Site.template, htype]
    rw [← boundScope, walk_bound]
    rfl
  have hfind : Markup.Document.find ⟨"d", [.element boundModule.1 boundModule.2]⟩ "dom-module" =
      [boundModule] := rfl
  have hextract : boundSite.extract ⟨"d", [.element boundModule.1 boundModule.2]⟩ =
      .ok ⟨"d", [boundTemplate], []⟩ := by
    simp only [Site.extract, hfind, List.filterMapM, List.filterMapM.loop, hmodule, bind, Except.bind]
    rfl
  rw [SourceDocument.extract, show boundDocument.id = "d" from rfl, read_bound]
  simp only [bind, Except.bind]
  exact hextract

theorem eq_of_within_bound {fs : List Frame} {u : Usage} (h : Within boundTemplate.usages fs u) :
    u ∈ boundTemplate.usages := by
  cases h with
  | here h => exact h
  | argument h => simp [boundTemplate] at h
  | items h => simp [boundTemplate] at h
  | inside h => simp [boundTemplate] at h

theorem keeps_bound : DocumentUsages.Keeps "polymerRename" boundDocument.content.toList
    ⟨"d", [boundTemplate], []⟩ := by
  have hnames (span : Span) (h : DocumentUsages.NamesAttribute ⟨"d", [boundTemplate], []⟩ span) :
      span = ⟨36, 40⟩ := by
    obtain ⟨t, ht, fs, tag, type, property, hu⟩ := h
    obtain rfl := List.mem_singleton.1 ht
    have hu := eq_of_within_bound hu
    simp only [boundTemplate, List.mem_cons, List.not_mem_nil, or_false, Usage.attributeName.injEq,
      reduceCtorEq] at hu
    exact hu.1
  refine ⟨⟨by decide, fun t ht => ?_, fun t ht fs u hu => ?_⟩, fun span hspan text htext => ?_,
    fun s t hs ht => .inl ((hnames s hs).trans (hnames t ht).symm)⟩
  · obtain rfl := List.mem_singleton.1 ht
    exact Fragment.noClose_of_not_mem (by decide)
  · obtain rfl := List.mem_singleton.1 ht
    have htype : Fragment.InComment "XB" := Fragment.noClose_of_not_mem (by decide)
    have hproperty : IsPath "myC" := by decide +kernel
    have hpath : IsPath "p" := by decide +kernel
    have hu := eq_of_within_bound hu
    simp only [boundTemplate, List.mem_cons, List.not_mem_nil, or_false] at hu
    rcases hu with rfl | rfl | rfl
    · exact ⟨htype, hproperty⟩
    · exact hpath
    · exact ⟨htype, hproperty⟩
  · have hslice : slice? boundDocument.content.toList ⟨36, 40⟩ = some "my-c".toList := by decide +kernel
    rw [hnames span hspan, hslice] at htext
    obtain rfl := Option.some.inj htext
    have hlower : ("my-c".toList.all fun c => decide ¬ ('A' ≤ c ∧ c ≤ 'Z')) = true := by decide +kernel
    exact ⟨fun c hc => of_decide_eq_true (List.all_eq_true.1 hlower c hc), by decide⟩

/-- The attribute and the path of the document are put back. -/
theorem replaceAll_of_extractAll_bound :
    ∃ extracted r, extractAll [boundDocument] boundSite.schemas boundSite.options = .ok extracted ∧
      DocumentUsages.Keeps "polymerRename" boundDocument.content.toList ⟨"d", [boundTemplate], []⟩ ∧
      replaceAll [boundDocument] (Fragment.combine extracted.fragments) boundSite.options = .ok r ∧
      r.failures = [] ∧
      r.documents.map (fun x => (x.document, x.text.content)) = [("d", boundDocument.content)] := by
  have hall : extractAll [boundDocument] boundSite.schemas boundSite.options =
      .ok ⟨[⟨"d", [boundTemplate], []⟩].filterMap (Fragment.ofUsages? "polymerRename"), []⟩ := by
    rw [extractAll, List.mapM_cons, List.mapM_nil, extract_bound]
    rfl
  obtain ⟨r, hr, hfailures, hdocuments⟩ := replaceAll_of_extractAll (by decide)
    (fun d hd => by
      obtain rfl := List.mem_singleton.1 hd
      decide +kernel)
    (fun d hd map hmap => by
      obtain rfl := List.mem_singleton.1 hd
      cases hmap)
    hall
    (fun d hd u hu => by
      obtain rfl := List.mem_singleton.1 hd
      obtain rfl := Except.ok.inj (extract_bound.symm.trans hu)
      exact keeps_bound)
  exact ⟨_, r, hall, keeps_bound, hr, hfailures, hdocuments⟩

end Relabel
