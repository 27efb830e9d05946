import Relabel.Proofs.Extraction.WellNamed
import Relabel.Proofs.Recovery.Outcomes
import Relabel.Proofs.Replacement

/-!
# The fragments of an extraction are a program

If the names in some documents are those of a script, and so are the properties that their attributes are
named for, then the fragments of the documents, put together, can be read
(`readable_of_extractAll`): no document among them makes a replacement fail for the others.
-/

namespace Relabel
open Text
open Fragment (isVariable StatementsOk)
variable {u : DocumentUsages} {d : SourceDocument}
  {documents : List SourceDocument} {schemas : SchemaTable} {options : Options} {extracted : Extracted}

theorem writable_of_extract (h : d.extract schemas options = .ok u)
    (hnames : ∀ document, Markup.read d.id d.content = .ok document → WellNamed document.children u.templates)
    (hpaths : HasPaths u.templates) : ∀ t ∈ u.templates, t.Writable := by
  intro t ht
  obtain ⟨site, document, hsource, hread, hextracts, -⟩ := extracts_of_extract h
  rw [← hsource] at hnames
  exact (hnames document hread).writable_of_extracts hpaths hextracts ht

/-- A program that can be read does not fail for its syntax. -/
theorem replaceAll_ne_scriptSyntax {program : String} {tree : Script.Tree}
    (htree : Script.read? program = some tree) (documents : List SourceDocument) (options : Options) :
    replaceAll documents program options ≠ .error .scriptSyntax := by
  have hcalls : recordingCalls options.recordingObject tree ≠ .error .scriptSyntax := by
    intro hcalls
    rw [recordingCalls, mapM_eq_findSome?] at hcalls
    split at hcalls
    · next failure hfailure =>
      obtain ⟨e, he, hproblem⟩ := List.exists_of_findSome?_eq_some hfailure
      obtain ⟨u, -, hu⟩ := List.mem_filterMap.1 he
      obtain rfl := Except.error.inj hcalls
      rw [ofTree?_eq] at hu
      simp only [Option.bind_eq_some_iff, Option.map_eq_some_iff] at hu
      obtain ⟨_, _, recorder, _, rfl⟩ := hu
      cases hlocation : RecordingCall.location u.children.tail with
      | ok found => simp [hlocation, problem?] at hproblem
      | error problem => simp [hlocation, problem?] at hproblem
    · cases hcalls
  rw [replaceAll, Recovery.read, htree]
  cases h : recordingCalls options.recordingObject tree with
  | ok calls => simp [bind, Except.bind, pure, Except.pure, h]
  | error failure =>
    rw [h] at hcalls
    simpa [bind, Except.bind, h] using hcalls

/-- If the bindings, listeners and loops of some documents name what a script can name, and the properties
that attributes are named for can be written behind a dot, then the reader accepts the fragments of the
documents as a program, whatever else the attributes are called, and replacing never fails for its syntax.
Errors that module code reports before it runs and that are none of syntax, such as a variable called `eval` or
`arguments`, are not looked at. -/
theorem readable_of_extractAll (hobject : isVariable options.recordingObject = true)
    (h : extractAll documents schemas options = .ok extracted)
    (hnames : ∀ d ∈ documents, ∀ document u, Markup.read d.id d.content = .ok document →
      d.extract schemas options = .ok u → WellNamed document.children u.templates)
    (hpaths : ∀ d ∈ documents, ∀ u, d.extract schemas options = .ok u → HasPaths u.templates) :
    (∃ tree, Script.read? (Fragment.combine extracted.fragments) = some tree) ∧
      ∀ targets, replaceAll targets (Fragment.combine extracted.fragments) options ≠ .error .scriptSyntax := by
  obtain ⟨us, hus, hfragments⟩ := exists_of_extractAll h
  have hok : ∀ u ∈ us, StatementsOk (Fragment.program options.recordingObject u).toList := by
    intro u hu
    have hmem : Except.ok u ∈ documents.map (·.extract schemas options) := hus ▸ List.mem_map_of_mem hu
    obtain ⟨d, hd, hextract⟩ := List.mem_map.1 hmem
    exact Fragment.ok_program (Fragment.isIdentifier_of_isVariable hobject) (writable_of_extract hextract
      (fun document hread => hnames d hd document u hread hextract) (hpaths d hd u hextract))
  obtain ⟨tree, htree, -⟩ := read?_combine hok
  rw [← hfragments] at htree
  exact ⟨⟨tree, htree⟩, fun targets => replaceAll_ne_scriptSyntax htree targets options⟩

/-- A loop whose item is called like the recording object, around a call with a literal. -/
def shadowedDocument : SourceDocument where
  id := "d"
  content := "<dom-module id=\"x-a\"><template><dom-repeat items=\"[[xs]]\" as=\"o\">"
    ++ "<x-b c=\"[[f(o.a, -1)]]\"></x-b></dom-repeat></template></dom-module>"
  map := none

def shadowedSchemas : SchemaTable where
  schemas := [
    { tag := "x-a", properties := [("xs", { renameable := true })] },
    { tag := "x-b", properties := [("c", { renameable := true })] }]
  typeNames := [("x-a", "XA")]

def shadowedOptions : Options :=
  { recordingObject := "o" }

theorem isScriptable_shadowed {document : Markup.Document}
    (h : Markup.read "d" shadowedDocument.content = .ok document) :
    ∀ n ∈ Markup.preorderOf document.children, n.isScriptable = true := by
  have hcheck : ((Markup.read "d" shadowedDocument.content).toOption.all fun document =>
      (Markup.preorderOf document.children).all Markup.Node.isScriptable) = true := by
    decide +kernel
  rw [h] at hcheck
  exact List.all_eq_true.1 hcheck

theorem extract_shadowed :
    ∃ u, shadowedDocument.extract shadowedSchemas shadowedOptions = .ok u ∧
      (Fragment.program "o" u).isSome = true ∧ ∀ t ∈ u.templates, Fragment.InComment t.typeName ∧
        ∀ e ∈ Usage.targetsOf t.usages, Fragment.InComment e.1 ∧ IsPath e.2 := by
  have hcheck : ((shadowedDocument.extract shadowedSchemas shadowedOptions).toOption.any fun u =>
      (Fragment.program "o" u).isSome && u.templates.all fun t =>
        !t.typeName.toList.contains '*' && (Usage.targetsOf t.usages).all fun e =>
          !e.1.toList.contains '*' && decide (IsPath e.2)) = true := by
    decide +kernel
  cases h : shadowedDocument.extract shadowedSchemas shadowedOptions with
  | error e => rw [h] at hcheck; cases hcheck
  | ok u =>
    rw [h, Except.toOption, Option.any_some, Bool.and_eq_true, List.all_eq_true] at hcheck
    have hcomment {type : String} (h : (!type.toList.contains '*') = true) : Fragment.InComment type :=
      Fragment.noClose_of_not_mem (by simpa using h)
    refine ⟨u, rfl, hcheck.1, fun t ht => ?_⟩
    have htemplate := hcheck.2 t ht
    rw [Bool.and_eq_true, List.all_eq_true] at htemplate
    refine ⟨hcomment htemplate.1, fun e he => ?_⟩
    have htarget := htemplate.2 e he
    rw [Bool.and_eq_true] at htarget
    exact ⟨hcomment htarget.1, of_decide_eq_true htarget.2⟩

/-- The item hides the recording object, and still the fragment is a program. -/
theorem readable_of_extractAll_shadowed :
    ∃ extracted tree, extractAll [shadowedDocument] shadowedSchemas shadowedOptions = .ok extracted ∧
      extracted.fragments ≠ [] ∧ Script.read? (Fragment.combine extracted.fragments) = some tree := by
  obtain ⟨u, hu, hprogram, htargets⟩ := extract_shadowed
  obtain ⟨p, hp⟩ := Option.isSome_iff_exists.1 hprogram
  have hall : extractAll [shadowedDocument] shadowedSchemas shadowedOptions =
      .ok ⟨[u].filterMap (Fragment.ofUsages? "o"), u.warnings⟩ := by
    rw [extractAll, List.mapM_cons, List.mapM_nil, hu]
    simp [bind, Except.bind, pure, Except.pure, shadowedOptions]
  have hown {d : SourceDocument} {v : DocumentUsages} (hd : d ∈ [shadowedDocument])
      (hv : d.extract shadowedSchemas shadowedOptions = .ok v) : d = shadowedDocument ∧ v = u := by
    obtain rfl := List.mem_singleton.1 hd
    exact ⟨rfl, Except.ok.inj (hv.symm.trans hu)⟩
  obtain ⟨⟨tree, htree⟩, -⟩ := readable_of_extractAll (by decide) hall
    (fun d hd document v hread hv => by
      obtain ⟨rfl, rfl⟩ := hown hd hv
      refine wellNamed_of_isScriptable (isScriptable_shadowed hread) fun t ht => ?_
      exact ⟨(htargets t ht).1, fun e he => ((htargets t ht).2 e he).1⟩)
    (fun d hd v hv t ht e he => by
      obtain ⟨rfl, rfl⟩ := hown hd hv
      exact ((htargets t ht).2 e he).2)
  refine ⟨_, tree, hall, ?_, htree⟩
  simp [Fragment.ofUsages?, hp]

end Relabel
