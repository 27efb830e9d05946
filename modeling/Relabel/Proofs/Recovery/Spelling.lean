import Relabel.Proofs.Extraction.Offsets
import Relabel.Proofs.Recovery.Unrenamed

/-!
# Names of attributes

The property of an attribute is written as an attribute again without a look at the document. It leads
back to the name that the document has if that name is `Hyphened`; in any other spelling the recording
call of the attribute asks for another name, also where nothing was renamed (`respelled_of_extracts`).

Which property a call refers to can be told from the name that it asks for, as long as no hyphen is in the
property. So calls that ask for one name refer to one property (`attribute_determines_property`).
-/

namespace Relabel
open Text
open Markup (Document)
open Fragment (Phrase Target elementVariable isVariable recordingsOf statements)
variable {site : Site} {document : Document} {d : DocumentUsages} {t : TemplateUsages} {fs : List Frame}
  {name : String} {span : Span} {tag type property : String} {target : Target} {v : String → String}
  {p : Phrase} {c : RecordingCall} {r : Renaming}

/-- The recording call of an attribute, with the property that the walk gave it, asks for that property
as an attribute. -/
theorem says_recordings_attributeName (hobject : isVariable target.object = true) (hspan : span.IsShort)
    (hv : KeepsObject target.object v)
    (hp : p ∈ recordingsOf (statements target (.attributeName span tag type property))) :
    Says target.object (p.item.tree.renamed id v)
      ⟨target.document, span, hyphenate property⟩ := by
  have hphrase : recordingsOf (statements target (.attributeName span tag type property)) =
      [target.recording .attributeName span
        [.name (elementVariable type), .member (.name (elementVariable type)) property]] := rfl
  rw [hphrase] at hp
  obtain rfl := List.mem_singleton.1 hp
  have hfunctions : KeepsFunctions target.object id := keepsFunctions_id
  have hholder := Fragment.isVariable_elementVariable type
  have hanswers := @answers_attributeName id span target (elementVariable type) property hfunctions hobject
    hspan hholder v hv
  rwa [Reference.outcome, Reference.name, List.map_id, dotted_segments] at hanswers

/-- The text has at the span of an attribute a name, and the property of the attribute leads back to that
name in lower case and with one hyphen for all hyphens in a row. So it is the same name exactly if the
name is written like that, and this is what a recording call asks for whose property nobody renamed. -/
theorem respelled_of_extracts (hfit : size site.source.toList < UInt32.size)
    (hread : Markup.read name site.source = .ok document) (h : site.Extracts document d) (ht : t ∈ d.templates)
    (hu : Within t.usages fs (.attributeName span tag type property)) :
    ∃ written, slice? site.source.toList span = some written ∧
      hyphenate property = .ofList (respelled written) ∧
      (hyphenate property = .ofList written ↔ Hyphened written) ∧
      ∀ target v, isVariable target.object = true → KeepsObject target.object v →
        ∀ p ∈ recordingsOf (statements target (.attributeName span tag type property)),
          Says target.object (p.item.tree.renamed id v)
            ⟨target.document, span, .ofList (respelled written)⟩ := by
  have hshort : span.IsShort := by
    cases Site.origin_of_within h ht hu with
    | attributeName => exact Span.isShort_ofOffsets ..
  obtain ⟨written, hslice, rfl⟩ := placed_of_extracts hfit hread h ht hu
  have hback := hyphenate_camelCase_lowercase written
  refine ⟨written, hslice, hback, ?_, fun target v hobject hv p hp => ?_⟩
  · rw [hback, String.ofList_inj, respelled_eq_self_iff]
  · have hsays := says_recordings_attributeName hobject hshort hv hp
    rwa [hback] at hsays

/-- A template with an attribute that is written in another case and with two hyphens in a row. -/
def spelledSite : Site where
  document := "d"
  source := "<template><x-b Data--Foo></x-b></template>"
  schemas := ⟨[{ tag := "x-a", typeName := some "XA" },
    { tag := "x-b", typeName := some "XB", properties := [("dataFoo", { renameable := true })] }], []⟩
  options := {}

/-- The tree of that template. -/
def spelledDocument : Document :=
  ⟨"d", [.element ⟨"template", [], ⟨0, 42⟩, ⟨0, 10⟩⟩
    [.element ⟨"x-b", [⟨⟨"Data--Foo", ⟨15, 24⟩⟩, none⟩], ⟨10, 31⟩, ⟨10, 25⟩⟩ []]]⟩

theorem read_spelled : Markup.read "d" spelledSite.source = .ok spelledDocument := by
  have htokens : (Markup.tokens 0 spelledSite.source.toList).toOption = some
      [.startTag ⟨"template", [], ⟨0, 10⟩, ⟨0, 10⟩⟩ false,
        .startTag ⟨"x-b", [⟨⟨"Data--Foo", ⟨15, 24⟩⟩, none⟩], ⟨10, 25⟩, ⟨10, 25⟩⟩ false,
        .endTag "x-b" ⟨25, 31⟩, .endTag "template" ⟨31, 42⟩] := by
    decide +kernel
  cases h : Markup.tokens 0 spelledSite.source.toList with
  | error e => rw [h] at htokens; cases htokens
  | ok ts =>
    rw [h] at htokens
    obtain rfl := Option.some.inj htokens
    exact Markup.read_eq_ok h "d"

theorem extractRoot_spelled : spelledSite.extractRoot spelledDocument "x-a" =
    .ok ⟨"d", [⟨"x-a", "XA", [.attributeName ⟨15, 24⟩ "x-b" "XB" "dataFoo"]⟩], []⟩ := by
  rfl

/-- The name of the attribute, which is written in its own way, is asked for in another one. -/
theorem respelled_of_extracts_own :
    size spelledSite.source.toList < UInt32.size ∧ Markup.read "d" spelledSite.source = .ok spelledDocument ∧
      ∃ d t, spelledSite.Extracts spelledDocument d ∧ t ∈ d.templates ∧
        Within t.usages [] (.attributeName ⟨15, 24⟩ "x-b" "XB" "dataFoo") ∧
        slice? spelledSite.source.toList ⟨15, 24⟩ = some "Data--Foo".toList ∧
        hyphenate "dataFoo" = "data-foo" ∧ ¬ Hyphened "Data--Foo".toList ∧
        ∃ p : Phrase, Says "polymerRename" (p.item.tree.renamed id id) ⟨"d", ⟨15, 24⟩, "data-foo"⟩ := by
  have hfit : size spelledSite.source.toList < UInt32.size := by decide +kernel
  have hextracts : spelledSite.Extracts spelledDocument _ := .inr ⟨"x-a", extractRoot_spelled⟩
  have hu : Within [Usage.attributeName ⟨15, 24⟩ "x-b" "XB" "dataFoo"] []
      (.attributeName ⟨15, 24⟩ "x-b" "XB" "dataFoo") := .here (List.mem_singleton_self _)
  have hslice : slice? spelledSite.source.toList ⟨15, 24⟩ = some "Data--Foo".toList := by decide +kernel
  have hrespelled : String.ofList (respelled "Data--Foo".toList) = "data-foo" := by decide +kernel
  obtain ⟨written, hwritten, hback, hiff, hsays⟩ :=
    respelled_of_extracts hfit read_spelled hextracts (List.mem_singleton_self _) hu
  obtain rfl : "Data--Foo".toList = written := Option.some.inj (hslice.symm.trans hwritten)
  rw [hrespelled] at hback
  refine ⟨hfit, read_spelled, _, _, hextracts, List.mem_singleton_self _, hu, hslice, hback, ?_, ?_⟩
  · rw [← hiff, hback]
    decide
  · have hobject : isVariable "polymerRename" = true := by decide
    have hsay := hsays ⟨"polymerRename", "d"⟩ id hobject keepsObject_id _ (List.mem_singleton_self _)
    rw [hrespelled] at hsay
    exact ⟨_, hsay⟩

/-! ### The property of a call -/

namespace RecordingCall

/-- The property that the call of an attribute refers to, behind the element. -/
def property? (c : RecordingCall) : Option String :=
  match c.args[4]? >>= path? with
  | some (_ :: part :: rest) => some (dotted (part :: rest))
  | _ => none

theorem settledName_of_settled (h : c.settled = .ok r) : c.settledName = .ok r.name := by
  rw [settled] at h
  cases hname : c.settledName with
  | error failure =>
    rw [hname] at h
    cases h
  | ok name =>
    rw [hname] at h
    obtain rfl := Except.ok.inj h
    rfl

/-- Whatever the element is called, the name of the attribute is what follows it in the path. -/
theorem path_of_attributeName (h : c.attributeName = .ok name) :
    ∃ element part rest, c.args[4]? >>= path? = some (element :: part :: rest) ∧
      name = hyphenate (dotted (part :: rest)) := by
  rw [attributeName, reference] at h
  cases helement : identifierAt? c.args 3 with
  | none =>
    rw [helement] at h
    cases h
  | some element =>
    rw [helement] at h
    cases hpath : c.args[4]? >>= path? with
    | none =>
      rw [hpath] at h
      cases h
    | some parts =>
      rw [hpath] at h
      rcases parts with _ | ⟨first, _ | ⟨part, rest⟩⟩
      · cases h
      · cases h
      · have hname : (if first = element then .ok (hyphenate (dotted (part :: rest))) else .error _) =
            Except.ok name := h
        split at hname
        · exact ⟨first, part, rest, rfl, (Except.ok.inj hname).symm⟩
        · cases hname

/-- The call of an attribute that settles a renaming refers to a property, and asks for that property as an
attribute. -/
theorem property?_of_settled (hrecorder : c.recorder = .attributeName) (h : c.settled = .ok r) :
    ∃ property, c.property? = some property ∧ r.name = hyphenate property := by
  have hname := settledName_of_settled h
  rw [settledName, hrecorder] at hname
  obtain ⟨element, part, rest, hpath, hname⟩ := path_of_attributeName hname
  exact ⟨dotted (part :: rest), by rw [property?, hpath], hname⟩

end RecordingCall

/-- A property without hyphens, in any letters, comes back from the name of its attribute. So the name that
the call of an attribute asks for tells the property that the call refers to, and calls that refer to
different properties ask for different names. -/
theorem attribute_determines_property :
    (∀ y : String, '-' ∉ y.toList → camelCase (hyphenate y) = y) ∧
    ∀ (c c' : RecordingCall) (r r' : Renaming), c.recorder = .attributeName → c'.recorder = .attributeName →
      c.settled = .ok r → c'.settled = .ok r' →
        ∃ x y, c.property? = some x ∧ c'.property? = some y ∧ ('-' ∉ x.toList → camelCase r.name = x) ∧
          ('-' ∉ x.toList → '-' ∉ y.toList → (r.name = r'.name ↔ x = y)) := by
  refine ⟨fun y => camelCase_hyphenate, fun c c' r r' hc hc' h h' => ?_⟩
  obtain ⟨x, hx, hname⟩ := RecordingCall.property?_of_settled hc h
  obtain ⟨y, hy, hname'⟩ := RecordingCall.property?_of_settled hc' h'
  refine ⟨x, y, hx, hy, fun hhyphen => ?_, fun hhyphen hhyphen' => ?_⟩
  · rw [hname, camelCase_hyphenate hhyphen]
  · rw [hname, hname', hyphenate_inj hhyphen hhyphen']

/-- Two attributes of an element, whose properties differ in the case of their first letters. -/
def attributesProgram : String :=
  "ns.attribute(\"d\", 0, 3, e, e.URLOf2);\nns.attribute(\"d\", 4, 9, e, e.urlOf2);"

/-- The names of these attributes differ, and lead back to the properties. -/
theorem attribute_determines_property_initials :
    camelCase (hyphenate "ÜBERMäßig2X") = "ÜBERMäßig2X" ∧
    ∃ recovery c c' r r', Recovery.read "ns" attributesProgram = .ok recovery ∧ recovery.calls = [c, c'] ∧
      c.recorder = .attributeName ∧ c'.recorder = .attributeName ∧ c.settled = .ok r ∧ c'.settled = .ok r' ∧
      c.property? = some "URLOf2" ∧ c'.property? = some "urlOf2" ∧ camelCase r.name = "URLOf2" ∧
      r.name ≠ r'.name := by
  obtain ⟨hback, happart⟩ := attribute_determines_property
  have hread : ((Recovery.read "ns" attributesProgram).toOption.any fun recovery =>
      decide (recovery.calls.map (fun c => (c.recorder, c.property?, c.settled.isOk)) =
        [(.attributeName, some "URLOf2", true), (.attributeName, some "urlOf2", true)])) = true := by
    decide +kernel
  cases h : Recovery.read "ns" attributesProgram with
  | error e => rw [h] at hread; cases hread
  | ok recovery =>
    rw [h] at hread
    simp only [Except.toOption, Option.any_some, decide_eq_true_eq] at hread
    obtain ⟨c, rest, hcalls, hc, hrest⟩ := List.map_eq_cons_iff.1 hread
    obtain ⟨c', last, rfl, hc', hlast⟩ := List.map_eq_cons_iff.1 hrest
    obtain rfl := List.map_eq_nil_iff.1 hlast
    simp only [Prod.mk.injEq] at hc hc'
    obtain ⟨hrecorder, hproperty, hok⟩ := hc
    obtain ⟨hrecorder', hproperty', hok'⟩ := hc'
    cases hsettled : c.settled with
    | error failure => rw [hsettled] at hok; cases hok
    | ok r =>
      cases hsettled' : c'.settled with
      | error failure => rw [hsettled'] at hok'; cases hok'
      | ok r' =>
        obtain ⟨x, y, hx, hy, hname, hiff⟩ := happart c c' r r' hrecorder hrecorder' hsettled hsettled'
        obtain rfl : "URLOf2" = x := Option.some.inj (hproperty.symm.trans hx)
        obtain rfl : "urlOf2" = y := Option.some.inj (hproperty'.symm.trans hy)
        have hne : r.name ≠ r'.name := fun heq => absurd ((hiff (by decide) (by decide)).1 heq) (by decide)
        exact ⟨hback _ (by decide), recovery, c, c', r, r', rfl, hcalls, hrecorder, hrecorder', hsettled,
          hsettled', hproperty, hproperty', hname (by decide), hne⟩

end Relabel
