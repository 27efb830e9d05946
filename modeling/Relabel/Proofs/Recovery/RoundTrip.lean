import Relabel.Proofs.Extraction.WellNamed
import Relabel.Proofs.Fragment.Renaming

/-!
# Recovery undoes emission

A program that was emitted for an extraction is read, and what a renamer makes of it, recovery turns back
into one name for each reference of the extraction, in order (`renamings_of_renamed`). Which calls record
is read off the statements (`recordingParts_of_bare`); the renamer changes neither their number nor their
order, and each of them says the new name of its reference (`Emits.answers`).
-/

namespace Relabel
open Script
open Text (size)
open Markup (Document)
open Fragment (Phrase Statement Target Emits programTree recordingsOf TameAll branch)
variable {object name : String} {s : String → String} {vs : List (String → String)} {ss : List Statement}
  {ps : List Phrase} {rs : List Reference} {t t' : Tree} {ts ts' : List Tree} {target : Target}
  {site : Site} {document : Document} {d : DocumentUsages} {fragment : Fragment}

/-! ### Recording calls -/

theorem recordingParts_bare (t : Tree) :
    recordingParts object [t.bare] = (recordingParts object [t]).map Tree.bare := by
  have hrecording : isRecording object ∘ Tree.bare = isRecording object := funext isRecording_bare
  simp only [recordingParts, Tree.partsOf, List.append_nil, Tree.parts_bare, List.filter_map, hrecording]

theorem callsFunctions_bare (h : CallsFunctions object [t.bare]) : CallsFunctions object [t] := by
  intro u hu name hname
  refine h u.bare ?_ name (by rwa [called?_bare])
  simp only [Tree.partsOf, List.append_nil, Tree.parts_bare] at hu ⊢
  exact List.mem_map_of_mem hu

/-- The recording calls of a program that was read are the phrases of its `record` statements. -/
theorem recordingParts_of_programTree (h : TameAll object ss) (ht : t.bare = programTree ss) :
    (recordingParts object [t]).map Tree.bare = (recordingsOf ss).map (fun p => p.item.tree) ∧
      CallsFunctions object [t] := by
  have htally := (Fragment.tally_of_tameAll h).branch (l := .program) rfl
  rw [← recordingParts_bare, ht]
  exact ⟨htally.recording, callsFunctions_bare (ht ▸ htally.functions)⟩

/-- Every recording call is renamed in a way that keeps the object. -/
theorem Renamed.keepsObject (h : Renamed object s vs ts ts') : ∀ v ∈ vs, KeepsObject object v := by
  induction h with
  | nil => simp
  | whole hv _ _ ih =>
    intro v hmem
    rcases List.mem_append.1 hmem with hmem | hmem
    · rwa [List.eq_of_mem_replicate hmem]
    · exact ih v hmem
  | parts _ _ _ _ _ ihchildren ih =>
    exact fun v hmem => (List.mem_append.1 hmem).elim (ihchildren v) (ih v)

/-- What the recording calls of some phrases say, each renamed in its own way. -/
theorem says_zipWith (h : List.Forall₂ (Answers target s) ps rs)
    (hvs : ∀ v ∈ vs, KeepsObject target.object v) :
    List.Forall₂ (Says target.object) (List.zipWith (fun v p => p.item.tree.renamed s v) vs ps)
      (List.zipWith (fun v r => r.outcome target.document s v) vs rs) := by
  induction h generalizing vs with
  | nil => simp
  | cons hanswers _ ih =>
    cases vs with
    | nil => exact .nil
    | cons v vs =>
      exact .cons (hanswers v (hvs v (List.mem_cons_self ..)))
        (ih fun w hw => hvs w (List.mem_cons_of_mem _ hw))

/-- The recording calls of a renamed program say the new names of the references that the program
answers, in order. -/
theorem Fragment.Emits.says_of_renamed (h : Emits target ss rs) (hs : KeepsFunctions target.object s)
    (ht : t.bare = programTree ss) (ht' : Renamed target.object s vs [t] [t']) :
    vs.length = rs.length ∧ List.Forall₂ (Says target.object) (recordingParts target.object [t'])
      (List.zipWith (fun v r => r.outcome target.document s v) vs rs) := by
  obtain ⟨hparts, hfunctions⟩ := recordingParts_of_programTree h.tame ht
  obtain ⟨hlength, hrenamed⟩ := ht'.recordingParts_eq hs hfunctions
  have hanswers := h.answers s hs
  constructor
  · have := congrArg List.length hparts
    rw [List.length_map, List.length_map] at this
    rw [hlength, this, hanswers.length_eq]
  · have hbare : (recordingParts target.object [t']).map Tree.bare =
        List.zipWith (fun v p => p.item.tree.renamed s v) vs (recordingsOf ss) := by
      have hzip : List.zipWith (fun v p => p.item.tree.renamed s v) vs (recordingsOf ss) =
          List.zipWith (fun v u => u.renamed s v) vs ((recordingsOf ss).map fun p => p.item.tree) :=
        (List.zipWith_map_right ..).symm
      rw [hrenamed, hzip, ← hparts, List.zipWith_map_right]
      exact congrArg (List.zipWith · vs _) (funext fun v => funext fun u => Tree.bare_renamed u)
    have hsays := says_zipWith hanswers ht'.keepsObject
    rw [← hbare, List.forall₂_map_left_iff] at hsays
    exact hsays.imp fun u r hr => says_iff_bare.1 hr

/-! ### Documents -/

theorem emits_of_extracts {p : Statement} (hread : Markup.read name site.source = .ok document)
    (h : site.Extracts document d) (hd : d.Named object) (hp : Fragment.program object d = some p) :
    Emits ⟨object, d.document⟩ [p] d.references :=
  Fragment.emits_program hd.isVariable_object
    (fun _ ht => templateSound_of_extracts hread h hd ht) hp

/-- The fragment of an extraction whose names are identifiers is read. After a renamer gave properties
and variables other identifiers, recovery gets as many calls as the fragment counts, and its renamings
are the references of the extraction, in order, with their spans and new names. -/
theorem renamings_of_renamed (hread : Markup.read name site.source = .ok document)
    (h : site.Extracts document d) (hd : d.Named object) (hfragment : Fragment.ofUsages? object d = some fragment) :
    ∃ t, Script.read? fragment.code = some t ∧ d.references.length = fragment.recordCount ∧
      ∀ s vs program t', KeepsFunctions object s → Script.read? program = some t' →
        Renamed object s vs [t] [t'] →
          ∃ r, Recovery.read object program = .ok r ∧ vs.length = fragment.recordCount ∧
            r.calls.length = fragment.recordCount ∧
            r.renamings d.document = .ok
              (List.zipWith (fun v reference => reference.outcome d.document s v) vs d.references) := by
  obtain ⟨p, hp, rfl⟩ := Option.map_eq_some_iff.1 hfragment
  have hemits := emits_of_extracts hread h hd hp
  obtain ⟨t, ht, hbare⟩ := Fragment.read?_programText hemits.ok (Fragment.placed_of_program hp)
  have hcount : d.references.length = p.records := by
    rw [← (hemits.answers _ keepsFunctions_id).length_eq, Fragment.length_recordingsOf]
    rfl
  refine ⟨t, ht, hcount, fun s vs program t' hs ht' hrenamed => ?_⟩
  obtain ⟨hlength, hsays⟩ := hemits.says_of_renamed hs hbare hrenamed
  obtain ⟨r, hr, hsettle⟩ := read_of_says ht' hsays
  refine ⟨r, hr, hlength.trans hcount, ?_, ?_⟩
  · rw [hsettle.length_eq, List.length_zipWith, hlength, Nat.min_self, hcount]
  · rw [hsettle.renamings, List.filter_eq_self.2]
    intro a ha
    rw [← List.map_uncurry_zip_eq_zipWith] at ha
    obtain ⟨⟨v, reference⟩, -, rfl⟩ := List.mem_map.1 ha
    simp [Reference.outcome]

/-- To each renaming there is a program that the fragment is turned into. -/
theorem exists_renamed_of_extracts {v : String → String} (hread : Markup.read name site.source = .ok document)
    (h : site.Extracts document d) (hd : d.Named object) (hfragment : Fragment.ofUsages? object d = some fragment)
    (hnames : Fragment.Renames s v) (hv : KeepsObject object v) (ht : Script.read? fragment.code = some t) :
    ∃ program t', Script.read? program = some t' ∧
      Renamed object s (List.replicate (recordingParts object [t]).length v) [t] [t'] := by
  obtain ⟨p, hp, rfl⟩ := Option.map_eq_some_iff.1 hfragment
  have hok := (emits_of_extracts hread h hd hp).ok
  have hplaced := Fragment.placed_of_program hp
  obtain ⟨u, hu, hbare⟩ := Fragment.read?_programText hok hplaced
  obtain rfl := Option.some.inj (ht.symm.trans hu)
  obtain ⟨t', ht', hbare'⟩ := Fragment.read?_renamed hnames hok hplaced
  have hrenamed : t'.bare = (t.renamed s v).bare := by rw [hbare', ← hbare, Tree.bare_renamed]
  refine ⟨_, t', ht', ?_⟩
  simpa using Renamed.whole hv hrenamed .nil

/-- Two lists: the item of the first one has a name and an observed property, and flows into an element that
is listened to; the item of the second one has no name. -/
def listsSite : Site where
  document := "d"
  source := "<template><dom-repeat items=\"[[xs]]\" as=\"row\" observe=\"b\">"
    ++ "<x-b my-c=\"[[f(row.a)]]\" on-tap=\"g\"></x-b></dom-repeat>"
    ++ "<dom-repeat items=\"[[xs]]\">[[item.a]]</dom-repeat></template>"
  schemas := ⟨[
    { tag := "x-a", typeName := some "XA", properties := [("xs", { renameable := true })],
      methods := [("f", true), ("g", true)] },
    { tag := "x-b", typeName := some "XB", properties := [("myC", { renameable := true })] }], []⟩
  options := {}

def listsNames : String → String
  | "xs" => "y"
  | "a" => "z"
  | "b" => "w"
  | "f" => "m"
  | "g" => "n"
  | "myC" => "qR"
  | name => name

def listsVariables : String → String
  | "row" => "r"
  | "item" => "i"
  | "index" => "k"
  | "renameFn" => "h"
  | "polymerRename_XB" => "e"
  | name => name

theorem renames_lists : Fragment.Renames listsNames listsVariables := by
  refine ⟨fun n hn => ?_, fun n hn => ?_, fun n hn => ?_, rfl, rfl⟩
  · unfold listsNames
    split <;> first | decide | exact hn
  · unfold listsVariables
    split <;> first | decide | exact hn
  · unfold listsVariables at hn
    split at hn <;> first | exact hn | exact absurd hn (by decide)

theorem keepsObject_lists : KeepsObject "ns" listsVariables := by
  refine ⟨rfl, fun n hn => ?_, fun n hn => ?_⟩ <;> unfold listsVariables at hn <;> split at hn <;>
    first | exact hn | exact absurd hn (by decide)

/-- The names that the two lists come back with: the property of the row behind the row as it was, and that of the
item without a name behind the item as it was. -/
def listsRenamings : List Renaming :=
  [⟨"d", ⟨31, 33⟩, "y"⟩, ⟨"d", ⟨55, 56⟩, "w"⟩, ⟨"d", ⟨63, 67⟩, "q-r"⟩, ⟨"d", ⟨71, 72⟩, "m"⟩,
    ⟨"d", ⟨73, 78⟩, "row.z"⟩, ⟨"d", ⟨91, 92⟩, "n"⟩, ⟨"d", ⟨134, 136⟩, "y"⟩, ⟨"d", ⟨142, 148⟩, "item.z"⟩]

theorem exists_extracts_lists :
    ∃ document d fragment, Markup.read "d" listsSite.source = .ok document ∧ listsSite.Extracts document d ∧
      d.Named "ns" ∧ d.document = "d" ∧ Fragment.ofUsages? "ns" d = some fragment ∧
      d.references.map (Reference.outcome "d" listsNames listsVariables) = listsRenamings := by
  have hcheck : ((Markup.read "d" listsSite.source).toOption.any fun document =>
      (listsSite.extractRoot document "x-a").toOption.any fun d =>
        d.document == "d" && (Fragment.ofUsages? "ns" d).isSome &&
          d.references.map (Reference.outcome "d" listsNames listsVariables) == listsRenamings &&
          (Markup.preorderOf document.children).all (fun n => n.isScriptable && n.spares "ns") &&
          d.templates.all fun t => !t.typeName.toList.contains '*' && (Usage.targetsOf t.usages).all fun e =>
            !e.1.toList.contains '*' && decide (IsPath e.2)) = true := by
    decide +kernel
  cases hread : Markup.read "d" listsSite.source with
  | error failure => rw [hread] at hcheck; cases hcheck
  | ok document =>
    rw [hread, Except.toOption, Option.any_some] at hcheck
    cases hextract : listsSite.extractRoot document "x-a" with
    | error failure => rw [hextract] at hcheck; cases hcheck
    | ok d =>
      rw [hextract, Except.toOption, Option.any_some] at hcheck
      simp only [Bool.and_eq_true, List.all_eq_true, beq_iff_eq] at hcheck
      obtain ⟨⟨⟨⟨hdocument, hfragment⟩, hrenamings⟩, hnodes⟩, htemplates⟩ := hcheck
      obtain ⟨fragment, hfragment⟩ := Option.isSome_iff_exists.1 hfragment
      have hcomment {type : String} (h : (!type.toList.contains '*') = true) : Fragment.InComment type :=
        Fragment.noClose_of_not_mem (by simpa using h)
      have hextracts : listsSite.Extracts document d := .inr ⟨"x-a", hextract⟩
      have hwell : WellNamed document.children d.templates :=
        wellNamed_of_isScriptable (fun n hn => (hnodes n hn).1) fun t ht =>
          ⟨hcomment (htemplates t ht).1, fun e he => hcomment ((htemplates t ht).2 e he).1⟩
      have hpaths : HasPaths d.templates := fun t ht e he => of_decide_eq_true ((htemplates t ht).2 e he).2
      have hnamed := hwell.named_of_extracts hpaths hextracts (by decide) fun n hn => (hnodes n hn).2
      exact ⟨document, d, fragment, rfl, hextracts, hnamed, hdocument, hfragment, hrenamings⟩

/-- Every kind of recording call, after properties and variables got other names. -/
theorem renamings_of_renamed_lists :
    ∃ document d fragment t program t' vs r, Markup.read "d" listsSite.source = .ok document ∧
      listsSite.Extracts document d ∧ d.Named "ns" ∧ Fragment.ofUsages? "ns" d = some fragment ∧
      KeepsFunctions "ns" listsNames ∧ Script.read? fragment.code = some t ∧ Script.read? program = some t' ∧
      Renamed "ns" listsNames vs [t] [t'] ∧ Recovery.read "ns" program = .ok r ∧
      r.calls.length = fragment.recordCount ∧ r.renamings "d" = .ok listsRenamings := by
  obtain ⟨document, d, fragment, hread, hextracts, hnamed, hdocument, hfragment, hmap⟩ := exists_extracts_lists
  have hkeeps : KeepsFunctions "ns" listsNames := by decide +kernel
  obtain ⟨t, ht, hcount, hrenamings⟩ := renamings_of_renamed hread hextracts hnamed hfragment
  obtain ⟨program, t', ht', hrenamed⟩ :=
    exists_renamed_of_extracts hread hextracts hnamed hfragment renames_lists keepsObject_lists ht
  obtain ⟨r, hr, hlength, hcalls, h⟩ := hrenamings _ _ program t' hkeeps ht' hrenamed
  rw [List.length_replicate, ← hcount] at hlength
  rw [hlength, zipWith_replicate_length, hdocument, hmap] at h
  exact ⟨document, d, fragment, t, program, t', _, r, hread, hextracts, hnamed, hfragment, hkeeps, ht, ht',
    hrenamed, hr, hcalls, h⟩

end Relabel
