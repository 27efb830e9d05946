import Relabel.Proofs.Extraction.Readable
import Relabel.Proofs.Removal.Fragments

/-!
# Fragments of an extraction are cut out again

The fragments of an extraction are such as are cut out behind a program (`Fragment.Appended`), one for each
document that uses a name, whatever the document is called. So removal undoes emission
(`removal_of_extractAll`).
-/

namespace Relabel
open Text Fragment
variable {file program : String} {text : Mapped} {t : Script.Tree} {documents : List SourceDocument}
  {schemas : SchemaTable} {options : Options} {extracted : Extracted}

namespace Fragment.Appended
variable {object : String} {u : DocumentUsages} {f : Appended}

/-- What is written for a document, if its templates use any name. -/
def ofUsages? (object : String) (u : DocumentUsages) : Option Appended :=
  let body := u.templates.flatMap (templateStatements ⟨object, u.document⟩)
  if body.isEmpty then none else some ⟨u.document, body⟩

/-- The fragment that is written. -/
def fragment (f : Appended) : Fragment :=
  ⟨f.document, programText [f.statement], f.statement.records⟩

theorem program_eq (object : String) (u : DocumentUsages) :
    Fragment.program object u = (ofUsages? object u).map statement := by
  rw [ofUsages?, Fragment.program]
  split <;> rfl

theorem filterMap_fragments (object : String) (us : List DocumentUsages) :
    us.filterMap (Fragment.ofUsages? object) = (us.filterMap (ofUsages? object)).map fragment := by
  rw [List.map_filterMap]
  refine List.filterMap_congr fun u _ => ?_
  rw [Fragment.ofUsages?, program_eq, ofUsages?]
  split <;> rfl

end Fragment.Appended

/-- Removal undoes emission. If the recording object and all names in the usages of some documents are dotted lists
of identifiers, the types can stand in a comment and the literals are those of a script, so that the fragments can be
read at all, then cutting the fragments out from behind a program that holds none leaves the program and line ends, and
tells how many there were. An identifier is any name that is no reserved word, so also one that only code outside of
modules may declare, such as `static` or `await`. Nothing is asked of what the documents are called. -/
theorem removal_of_extractAll (hobject : (Phrase.name options.recordingObject).Ok)
    (h : extractAll documents schemas options = .ok extracted)
    (hnames : ∀ d ∈ documents, ∀ u, d.extract schemas options = .ok u → ∀ t ∈ u.templates, t.HasNames)
    (ht : Script.read? program = some t) (hnone : t.fragmentSpans = [])
    (hmap : ∀ map ∈ text.map, ∃ mappings, Mappings.decode map.mappings = .ok mappings)
    (htext : text.content = program ++ "\n" ++ combine extracted.fragments) :
    ∃ r n, Removal.of file text = .ok r ∧ r.removed = extracted.fragments.length ∧
      r.text.content = program ++ .ofList (List.replicate n '\n') := by
  obtain ⟨us, hus, hfragments⟩ := exists_of_extractAll h
  have hok : ∀ u ∈ us, StatementsOk (Fragment.program options.recordingObject u).toList := by
    intro u hu
    have hmem : Except.ok u ∈ documents.map (·.extract schemas options) := hus ▸ List.mem_map_of_mem hu
    obtain ⟨d, hd, hextract⟩ := List.mem_map.1 hmem
    obtain ⟨site, document, -, -, hextracts, -⟩ := extracts_of_extract hextract
    exact ok_program_of_ok hobject fun t ht => (hnames d hd u hextract t ht).writable_of_extracts hextracts ht
  rw [hfragments, Appended.filterMap_fragments] at htext ⊢
  rw [combine, List.map_map] at htext
  have hbodies : ∀ f ∈ us.filterMap (Appended.ofUsages? options.recordingObject), StatementsOk f.body := by
    intro f hf
    obtain ⟨u, hu, huf⟩ := List.mem_filterMap.1 hf
    have hprogram := hok u hu
    rw [Appended.program_eq, huf] at hprogram
    exact hprogram.1.2.2.2
  obtain ⟨r, n, hr, hremoved, hcontent⟩ := exists_removal_of_appended ht hnone hmap hbodies htext
  exact ⟨r, n, hr, hremoved.trans (List.length_map Appended.fragment).symm, hcontent⟩

/-- A loop that hides the recording object is emitted behind a call, and cut out again. -/
theorem removal_of_extractAll_shadowed :
    ∃ extracted r n, extractAll [shadowedDocument] shadowedSchemas shadowedOptions = .ok extracted ∧
      extracted.fragments.length = 1 ∧
      Removal.of "m.js" ⟨"f();" ++ "\n" ++ combine extracted.fragments, none⟩ = .ok r ∧ r.removed = 1 ∧
      r.text.content = "f();" ++ .ofList (List.replicate n '\n') := by
  obtain ⟨u, hu, hprogram, htargets⟩ := extract_shadowed
  obtain ⟨p, hp⟩ := Option.isSome_iff_exists.1 hprogram
  obtain ⟨t, ht, hnone⟩ : ∃ t, Script.read? "f();" = some t ∧ t.fragmentSpans = [] := by
    have hcheck : (Script.read? "f();").any (·.fragmentSpans.isEmpty) = true := by decide +kernel
    simpa [Option.any_eq_true] using hcheck
  have hall : extractAll [shadowedDocument] shadowedSchemas shadowedOptions =
      .ok ⟨[u].filterMap (Fragment.ofUsages? "o"), u.warnings⟩ := by
    rw [extractAll, List.mapM_cons, List.mapM_nil, hu]
    simp [bind, Except.bind, pure, Except.pure, shadowedOptions]
  have hlength : ([u].filterMap (Fragment.ofUsages? "o")).length = 1 := by
    simp [Fragment.ofUsages?, hp]
  have hnames : ∀ t ∈ u.templates, t.HasNames := by
    obtain ⟨site, document, hsource, hread, hextracts, -⟩ := extracts_of_extract hu
    have hnamed : WellNamed document.children u.templates :=
      wellNamed_of_isScriptable (isScriptable_shadowed (hsource ▸ hread)) fun t ht =>
        ⟨(htargets t ht).1, fun e he => ((htargets t ht).2 e he).1⟩
    have hpaths : HasPaths u.templates := fun t ht e he => ((htargets t ht).2 e he).2
    exact fun t ht => ⟨(htargets t ht).1, fun _ _ => hnamed.hasNames_of_within hpaths hextracts ht⟩
  have hown : ∀ d ∈ [shadowedDocument], ∀ v, d.extract shadowedSchemas shadowedOptions = .ok v →
      ∀ t ∈ v.templates, t.HasNames := fun d hd v hv => by
    obtain rfl := List.mem_singleton.1 hd
    obtain rfl := Except.ok.inj (hv.symm.trans hu)
    exact hnames
  let text : Mapped := ⟨"f();" ++ "\n" ++ combine ([u].filterMap (Fragment.ofUsages? "o")), none⟩
  have hmap : ∀ map ∈ text.map, ∃ mappings, Mappings.decode map.mappings = .ok mappings :=
    fun map hmap => by cases hmap
  obtain ⟨r, n, hr, hremoved, hcontent⟩ :=
    @removal_of_extractAll "m.js" _ text _ _ _ _ _ (ok_variable (by decide)) hall hown ht hnone hmap rfl
  exact ⟨_, r, n, hall, hlength, hr, hremoved.trans hlength, hcontent⟩

end Relabel
