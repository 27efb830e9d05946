import Relabel.Proofs.Fragment.Recordings
import Relabel.Proofs.Recovery.References

/-!
# Phrases that record nothing

A phrase is safe if it is read as what it says and nothing in it is a recording call. Paths, literals
and calls of methods are: what they call is no property of the recording object (`Phrase.Free`). Calls of
the object's own functions are safe, unless the function is a recorder (`tally_recording`).
-/

namespace Relabel
open Script
open Fragment (segments isName isVariable branch memberTree Phrase Tally tally_leaf tally_path)
variable {object path w name : String} {q : Qualifier} {p : Phrase} {args : List Phrase}

/-- A path is a dotted list of identifiers that starts with the loop variable it is qualified by. -/
structure Qualifier.Suits (object path : String) (q : Qualifier) : Prop where
  isPath : IsPath path
  fits : q.Fits path
  plain : q.Plain object

namespace Fragment

/-- A phrase that is read as what it says and records nothing. -/
structure Phrase.Safe (object : String) (p : Phrase) : Prop where
  ok : p.Ok
  tally : Tally object [p.item.tree] []

/-- A phrase that is no property of the recording object. -/
def Phrase.Free (object : String) (p : Phrase) : Prop :=
  property? object p.item.tree = none

/-! ### Paths -/

theorem property?_memberTree {t : Tree} (h : property? object t = none)
    (hlabel : t.label ≠ .identifier object) (ns : List String) :
    property? object (memberTree t ns) = none := by
  induction ns generalizing t with
  | nil => exact h
  | cons n ns ih =>
    refine ih ?_ (by simp [branch, Tree.label])
    have hlabels : [t].map Tree.label ≠ [.identifier object] := by simpa using hlabel
    exact if_neg hlabels

theorem safe_name (hpath : IsPath path) (hbase : isVariable (Text.leadingSegment path) = true) :
    (Phrase.name path).Safe object := by
  refine ⟨⟨_, _, segments_eq_cons path, isIdentifier_of_isVariable hbase, fun n hn => hpath n (List.mem_of_mem_tail hn)⟩, ?_⟩
  rw [Phrase.item]
  exact tally_path _

theorem free_name (hne : Text.leadingSegment path ≠ object) : (Phrase.name path).Free object := by
  rw [Phrase.Free, Phrase.item, segments_eq_cons path]
  exact property?_memberTree rfl (by simpa [branch, Tree.label] using hne) _

theorem safe_this (hpath : IsPath path) : (Phrase.this path).Safe object :=
  ⟨hpath, (tally_leaf (by simp)).members _⟩

theorem free_this (object path : String) : (Phrase.this path).Free object :=
  property?_memberTree rfl (by simp [branch, Tree.label]) _

theorem isVariable_leadingSegment {base : String} (hfits : q.Fits path) (hplain : q.Plain object)
    (hbase : base ∈ q.base?) :
    isVariable (Text.leadingSegment path) = true ∧ Text.leadingSegment path ≠ object := by
  rw [hfits base hbase]
  exact hplain base hbase

end Fragment

open Fragment

namespace Qualifier.Suits

theorem safe (h : q.Suits object path) : (q.phrase path).Safe object := by
  cases q with
  | component renameable => exact safe_this h.isPath
  | loop role bound depth => exact safe_name h.isPath (isVariable_leadingSegment h.fits h.plain rfl).1
  | item base => exact safe_name h.isPath (isVariable_leadingSegment h.fits h.plain rfl).1

theorem free (h : q.Suits object path) : (q.phrase path).Free object := by
  cases q with
  | component renameable => exact free_this object path
  | loop role bound depth => exact free_name (isVariable_leadingSegment h.fits h.plain rfl).2
  | item base => exact free_name (isVariable_leadingSegment h.fits h.plain rfl).2

end Qualifier.Suits

theorem Qualifier.isTarget_phrase (q : Qualifier) (path : String) : (q.phrase path).isTarget = true := by
  cases q <;> rfl

theorem Qualifier.indexesLet_phrase (q : Qualifier) (path : String) : (q.phrase path).indexesLet = false := by
  cases q <;> rfl

namespace Fragment

/-! ### Other phrases -/

theorem allOk_of_forall (h : ∀ a ∈ args, a.Ok) : AllOk args := by
  induction args with
  | nil => trivial
  | cons a args ih =>
    exact ⟨h a (List.mem_cons_self ..), ih fun b hb => h b (List.mem_cons_of_mem _ hb)⟩

theorem tally_itemsOf (h : ∀ a ∈ args, a.Safe object) :
    Tally object ((itemsOf args).map Item.tree) [] := by
  induction args with
  | nil => exact tally_nil
  | cons a args ih =>
    exact (h a (List.mem_cons_self ..)).tally.cons (ih fun b hb => h b (List.mem_cons_of_mem _ hb))

theorem tally_plainLiteral {cs : List Char} {a : Item} (h : plainLiteral? cs = some a) :
    Tally object [a.tree] [] := by
  rw [plainLiteral?] at h
  split at h
  · cases h
    exact tally_leaf (by simp)
  · cases h
    exact tally_leaf (by simp)
  · cases h

theorem safe_literal {text : String} (h : (literal? text).isSome = true) :
    (Phrase.literal text).Safe object := by
  refine ⟨h, ?_⟩
  obtain ⟨a, ha⟩ := Option.isSome_iff_exists.1 h
  have hsigned {cs : List Char} {sign : String}
      (h : (plainLiteral? cs).map (signedItem sign) = some a) : Tally object [a.tree] [] := by
    obtain ⟨b, hb, rfl⟩ := Option.map_eq_some_iff.1 h
    exact (tally_plainLiteral hb).branch rfl
  rw [Phrase.item, ha, Option.getD_some]
  rw [literal?] at ha
  split at ha
  · exact hsigned ha
  · exact hsigned ha
  · exact tally_plainLiteral ha

theorem safe_quoted (text : String) : (Phrase.quoted text).Safe object :=
  ⟨trivial, tally_leaf (by simp)⟩

theorem safe_number (n : Nat) : (Phrase.number n).Safe object :=
  ⟨trivial, tally_leaf (by simp)⟩

theorem safe_variable (h : isVariable w = true) : (Phrase.name w).Safe object := by
  have hsegments : segments w = [w] := segments_of_isName (isName_of_isVariable h)
  have hleading : Text.leadingSegment w = w := by
    have := segments_eq_cons w
    rw [hsegments] at this
    exact (List.cons.inj this).1.symm
  refine safe_name (fun n hn => ?_) (by rwa [hleading])
  rw [hsegments] at hn
  rw [List.mem_singleton.1 hn]
  exact isName_of_isVariable h

theorem safe_member {property : String} (hp : p.Safe object) (haccess : p.isAccess = true)
    (hproperty : IsPath property) : (Phrase.member p property).Safe object :=
  ⟨⟨haccess, hp.ok, hproperty⟩, hp.tally.members _⟩

theorem safe_element {index : Phrase} (hp : p.Safe object) (haccess : p.isAccess = true)
    (hindex : index.Safe object) : (Phrase.element p index).Safe object :=
  ⟨⟨haccess, hp.ok, hindex.ok⟩, (hp.tally.cons hindex.tally).branch rfl⟩

theorem safe_typed {type : String} (htype : InComment type) (hp : p.Safe object) :
    (Phrase.typed type p).Safe object :=
  ⟨⟨htype, hp.ok⟩, hp.tally.branch rfl⟩

theorem safe_create {constructor : String} (h : isVariable constructor = true)
    (hargs : ∀ a ∈ args, a.Safe object) : (Phrase.create constructor args).Safe object :=
  ⟨⟨isIdentifier_of_isVariable h, allOk_of_forall fun a ha => (hargs a ha).ok⟩,
    ((tally_leaf (by simp)).cons (tally_itemsOf hargs)).branch rfl⟩

/-- A call of what is no property of the object. -/
theorem safe_call (hp : p.Safe object) (hfree : p.Free object) (haccess : p.isAccess = true)
    (hargs : ∀ a ∈ args, a.Safe object) : (Phrase.call p args).Safe object :=
  ⟨⟨haccess, hp.ok, allOk_of_forall fun a ha => (hargs a ha).ok⟩,
    (hp.tally.cons (tally_itemsOf hargs)).branch hfree⟩

/-! ### Calls of functions -/

theorem called?_member {us : List Tree} : called? object
    (branch (.call false) (branch (.member name false) [branch (.identifier w) []] :: us)) =
      if w = object then some name else none := by
  simp [called?, property?, branch, Tree.label, Tree.children]

theorem item_call_member (args : List Phrase) (hw : isVariable w = true) (hname : isName name = true) :
    (Phrase.call (.member (.name w) name) args).item.tree = branch (.call false)
      (branch (.member name false) [branch (.identifier w) []] :: (itemsOf args).map Item.tree) := by
  rw [Phrase.item, Phrase.item, Phrase.item, segments_of_isName hname,
    segments_of_isName (isName_of_isVariable hw)]
  rfl

theorem ok_call_member (hw : isIdentifier w = true) (hname : isName name = true)
    (hargs : ∀ a ∈ args, a.Ok) : (Phrase.call (.member (.name w) name) args).Ok := by
  refine ⟨rfl, ⟨rfl, ⟨w, [], segments_of_isName (isName_of_isIdentifier hw), hw, by simp⟩, ?_⟩,
    allOk_of_forall hargs⟩
  rw [segments_of_isName hname]
  simpa using hname

/-- A call of a function of a variable. If the variable is the recording object, this is a function that
the object has. -/
theorem tally_call_member (hw : isVariable w = true) (hname : isName name = true)
    (hfunction : w = object → name ∈ functionNames object) (hargs : ∀ a ∈ args, a.Safe object) :
    Tally object [(Phrase.call (.member (.name w) name) args).item.tree]
      (if w = object ∧ (Recorder.ofName? name).isSome = true then
        [(Phrase.call (.member (.name w) name) args).item.tree] else []) := by
  have hcallee : Tally object [branch (.member name false) [branch (.identifier w) []]] [] :=
    (tally_leaf (by simp)).branch rfl
  have hcalled : ∀ n ∈ called? object (branch (.call false)
      (branch (.member name false) [branch (.identifier w) []] :: (itemsOf args).map Item.tree)),
        n ∈ functionNames object := by
    intro n hn
    rw [called?_member] at hn
    split at hn
    · next hobject =>
      obtain rfl := Option.some.inj hn
      exact hfunction hobject
    · cases hn
  have h := (hcallee.cons (tally_itemsOf hargs)).node hcalled
  rw [item_call_member args hw hname]
  have hrecording : isRecording object (branch (.call false)
      (branch (.member name false) [branch (.identifier w) []] :: (itemsOf args).map Item.tree)) =
        decide (w = object ∧ (Recorder.ofName? name).isSome = true) := by
    rw [isRecording, called?_member]
    by_cases hobject : w = object
    · simp [hobject]
    · simp [hobject]
  simpa [hrecording] using h

/-- A call of a function that is no recorder. -/
theorem safe_call_member (hw : isVariable w = true) (hname : isName name = true)
    (hfunction : w = object → name ∈ functionNames object ∧ Recorder.ofName? name = none)
    (hargs : ∀ a ∈ args, a.Safe object) : (Phrase.call (.member (.name w) name) args).Safe object := by
  refine ⟨ok_call_member (isIdentifier_of_isVariable hw) hname fun a ha => (hargs a ha).ok, ?_⟩
  have h := tally_call_member hw hname (fun hobject => (hfunction hobject).1) hargs
  rwa [if_neg] at h
  rintro ⟨hobject, hrecorder⟩
  rw [(hfunction hobject).2] at hrecorder
  cases hrecorder

theorem safe_helper {t : Target} (hobject : isVariable t.object = true) (hname : name ∈ helperNames)
    (hargs : ∀ a ∈ args, a.Safe t.object) : (Phrase.call (t.function name) args).Safe t.object := by
  have hfunction : name ∈ functionNames t.object := helperName_mem_functionNames hname
  refine safe_call_member hobject (isName_of_mem_functionNames hfunction) (fun _ => ⟨hfunction, ?_⟩) hargs
  simp only [helperNames, List.mem_cons, List.not_mem_nil, or_false] at hname
  rcases hname with rfl | rfl | rfl | rfl | rfl <;> decide

/-- The arguments of a recording call. -/
theorem safe_recordingArgs {document : String} {span : Span} (hargs : ∀ a ∈ args, a.Safe object) :
    ∀ a ∈ [Phrase.quoted document, .number span.start, .number span.stop] ++ args, a.Safe object := by
  intro a ha
  simp only [List.cons_append, List.nil_append, List.mem_cons] at ha
  rcases ha with rfl | rfl | rfl | ha
  · exact safe_quoted document
  · exact safe_number span.start
  · exact safe_number span.stop
  · exact hargs a ha

/-- A recording call is read as what it says, and it is one recording call. -/
theorem tally_recording {t : Target} {recorder : Recorder} {span : Span}
    (hobject : isVariable t.object = true) (hargs : ∀ a ∈ args, a.Safe t.object) :
    (t.recording recorder span args).Ok ∧
      Tally t.object [(t.recording recorder span args).item.tree]
        [(t.recording recorder span args).item.tree] := by
  have hfunction := name_mem_functionNames t.object recorder
  have hname := isName_of_mem_functionNames hfunction
  have hall : ∀ a ∈ [Phrase.quoted t.document, .number span.start, .number span.stop] ++ args,
      a.Safe t.object := safe_recordingArgs hargs
  refine ⟨ok_call_member (isIdentifier_of_isVariable hobject) hname fun a ha => (hall a ha).ok, ?_⟩
  have h := tally_call_member hobject hname (fun _ => hfunction) hall
  rwa [if_pos ⟨rfl, by rw [Recorder.ofName?_name]; rfl⟩] at h

end Fragment

end Relabel
