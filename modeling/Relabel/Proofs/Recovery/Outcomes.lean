import Relabel.Proofs.Recovery.Records
import Relabel.Replacement

/-!
# Documents have an outcome of their own

A program that can be read fails the run only for a recording call with a broken location, the first in
the order of the text. Without one, every document has an outcome (`SourceDocument.outcome`) that is
worked out from the calls that name it: the first of them that is rejected gives the document up, and
otherwise the document is spliced with what they all say. So calls that name other documents may come, go
and change (`callsFor_eq_of_alike`).
-/

namespace Relabel
open Script
variable {α β ε : Type} {object program id : String} {t : Tree} {ts : List Tree} {d : SourceDocument}
  {calls : List RecordingCall} {r : Recovery} {documents : List SourceDocument} {options : Options}

/-- What went wrong, if something did. -/
def problem? : Except ε α → Option ε
  | .ok _ => none
  | .error e => some e

theorem mapM_eq_findSome? (f : α → Except ε β) (as : List α) :
    as.mapM f = match as.findSome? fun a => problem? (f a) with
      | some e => .error e
      | none => .ok (as.filterMap fun a => (f a).toOption) := by
  induction as with
  | nil => rfl
  | cons a as ih =>
    rw [List.mapM_cons, List.findSome?_cons, List.filterMap_cons, ih]
    cases f a with
    | error e => rfl
    | ok b => cases as.findSome? fun a => problem? (f a) <;> rfl

/-! ### Calls -/

namespace RecordingCall
variable {c : RecordingCall}

/-- Why a call is rejected. -/
def rejection? (c : RecordingCall) : Option Failure :=
  problem? c.settled

/-- What a call says. -/
def renaming? (c : RecordingCall) : Option Renaming :=
  c.settled.toOption

theorem document_of_renaming? {x : Renaming} (h : c.renaming? = some x) : x.document = c.document := by
  rw [renaming?, settled] at h
  cases hname : c.settledName with
  | error e => rw [hname] at h; cases h
  | ok name =>
    rw [hname] at h
    cases h
    rfl

end RecordingCall

/-- The failure of a recording call whose location is broken. -/
def brokenLocation? (object : String) (t : Tree) : Option Failure :=
  (RecordingCall.ofTree? object t).bind problem?

/-- The call that an expression is for a document, without the spans of its arguments. -/
def callFor? (object document : String) (t : Tree) : Option RecordingCall := do
  let c ← (← RecordingCall.ofTree? object t).toOption
  guard (c.document = document)
  return c.bare

/-- The recording calls in some trees that name a document, in their order. -/
def callsFor (object document : String) (ts : List Tree) : List RecordingCall :=
  (Tree.partsOf ts).filterMap (callFor? object document)

theorem callFor?_bare (object document : String) (t : Tree) :
    callFor? object document t.bare = callFor? object document t := by
  have htail : t.bare.children.tail = t.children.tail.map Tree.bare := by
    rw [Tree.children_bare, List.map_tail]
  have hbares (us : List Tree) : (us.map Tree.bare).map Tree.bare = us.map Tree.bare := by
    rw [← Tree.bares_eq_map, ← Tree.bares_eq_map, Tree.bares_bares]
  rw [callFor?, callFor?, ofTree?_eq, ofTree?_eq, called?_bare, htail]
  simp only [RecordingCall.location_bare]
  cases called? object t with
  | none => rfl
  | some name =>
    simp only [Option.bind_some]
    cases Recorder.ofName? name with
    | none => rfl
    | some recorder =>
      simp only [Option.map_some]
      cases RecordingCall.location t.children.tail with
      | error problem => rfl
      | ok found => simp [Except.toOption, RecordingCall.bare, hbares]

theorem callsFor_cons (object document : String) (label : Label) (span : Span) (ts us : List Tree) :
    callsFor object document (.node label span ts :: us) =
      (callFor? object document (.node label span ts)).toList ++
        (callsFor object document ts ++ callsFor object document us) := by
  rw [callsFor, Tree.partsOf, Tree.parts, List.cons_append, List.filterMap_cons, List.filterMap_append]
  cases callFor? object document (.node label span ts) <;> rfl

theorem callsFor_cons_of_parts (h : ∀ u ∈ t.parts, callFor? object id u = none) (ts : List Tree) :
    callsFor object id (t :: ts) = callsFor object id ts := by
  rw [callsFor, Tree.partsOf, List.filterMap_append, List.filterMap_eq_nil_iff.2 h]
  rfl

/-- Trees that a document cannot tell apart. What makes no call that names it comes and goes; everything
else stays in its order and, as a call, says the same to the document, but may have other parts in it. -/
inductive Alike (object document : String) : List Tree → List Tree → Prop
  | nil : Alike object document [] []
  | node {label label' : Label} {span span' : Span} {parts parts' ts us : List Tree}
      (hcall : callFor? object document (.node label span parts) =
        callFor? object document (.node label' span' parts'))
      (hparts : Alike object document parts parts') (hrest : Alike object document ts us) :
      Alike object document (.node label span parts :: ts) (.node label' span' parts' :: us)
  | left {t : Tree} {ts us : List Tree} (h : ∀ u ∈ t.parts, callFor? object document u = none)
      (hrest : Alike object document ts us) : Alike object document (t :: ts) us
  | right {t : Tree} {ts us : List Tree} (h : ∀ u ∈ t.parts, callFor? object document u = none)
      (hrest : Alike object document ts us) : Alike object document ts (t :: us)

theorem callsFor_eq_of_alike {us : List Tree} (h : Alike object id ts us) :
    callsFor object id ts = callsFor object id us := by
  induction h with
  | nil => rfl
  | node hcall _ _ hparts hrest => rw [callsFor_cons, callsFor_cons, hcall, hparts, hrest]
  | left h _ hrest => rw [callsFor_cons_of_parts h, hrest]
  | right h _ hrest => rw [callsFor_cons_of_parts h, hrest]

/-- It does not matter to a document where anything stands. -/
theorem alike_of_bares_eq :
    ∀ ts us : List Tree, Tree.bares ts = Tree.bares us → Alike object id ts us
  | [], [], _ => .nil
  | [], .node .. :: _, h => by cases h
  | .node .. :: _, [], h => by cases h
  | .node label span parts :: ts, .node label' span' parts' :: us, h => by
    simp only [Tree.bares, Tree.bare, List.cons.injEq, Tree.node.injEq, true_and] at h
    obtain ⟨⟨rfl, hparts⟩, hrest⟩ := h
    refine .node ?_ (alike_of_bares_eq parts parts' hparts) (alike_of_bares_eq ts us hrest)
    rw [← callFor?_bare, Tree.bare, hparts, ← Tree.bare.eq_1 label span', callFor?_bare]

/-! ### Outcomes -/

/-- The outcome for a document, from the calls that name it. -/
def SourceDocument.outcome (d : SourceDocument) (calls : List RecordingCall) : Except Failure Replaced :=
  match calls.findSome? RecordingCall.rejection? with
  | some failure => .error failure
  | none =>
    let renamings := calls.filterMap RecordingCall.renaming?
    (d.splice (renamings.map Renaming.edit)).map fun text => ⟨d.id, text, renamings.length⟩

theorem SourceDocument.outcome_bare (d : SourceDocument) (calls : List RecordingCall) :
    d.outcome (calls.map RecordingCall.bare) = d.outcome calls := by
  have hsettled : RecordingCall.settled ∘ RecordingCall.bare = RecordingCall.settled :=
    funext RecordingCall.settled_bare
  have hrejection : RecordingCall.rejection? ∘ RecordingCall.bare = RecordingCall.rejection? := by
    funext c
    rw [Function.comp_apply, RecordingCall.rejection?, RecordingCall.settled_bare, RecordingCall.rejection?]
  have hrenaming : RecordingCall.renaming? ∘ RecordingCall.bare = RecordingCall.renaming? := by
    funext c
    rw [Function.comp_apply, RecordingCall.renaming?, RecordingCall.settled_bare, RecordingCall.renaming?]
  simp only [outcome, List.findSome?_map, List.filterMap_map, hrejection, hrenaming]

theorem Recovery.replace_eq_outcome (r : Recovery) (d : SourceDocument) :
    r.replace d = d.outcome (r.calls.filter (·.document == d.id)) := by
  have hown : ((r.calls.filter (·.document == d.id)).filterMap RecordingCall.renaming?).filter
      (·.document == d.id) = (r.calls.filter (·.document == d.id)).filterMap RecordingCall.renaming? := by
    refine List.filter_eq_self.2 fun x hx => ?_
    obtain ⟨c, hc, hcx⟩ := List.mem_filterMap.1 hx
    rw [RecordingCall.document_of_renaming? hcx]
    exact (List.mem_filter.1 hc).2
  have hrenamings : r.renamings d.id =
      match (r.calls.filter (·.document == d.id)).findSome? RecordingCall.rejection? with
      | some failure => .error failure
      | none => .ok ((r.calls.filter (·.document == d.id)).filterMap RecordingCall.renaming?) := by
    have hrejection : (fun c => problem? c.settled) = RecordingCall.rejection? := rfl
    rw [renamings, mapM_eq_findSome?, hrejection]
    cases (r.calls.filter (·.document == d.id)).findSome? RecordingCall.rejection? <;> rfl
  rw [replace, hrenamings, SourceDocument.outcome]
  cases (r.calls.filter (·.document == d.id)).findSome? RecordingCall.rejection? with
  | some failure => rfl
  | none =>
    simp only [bind, Except.bind, SourceDocument.rename, hown, Except.map]
    cases d.splice (((r.calls.filter (·.document == d.id)).filterMap RecordingCall.renaming?).map
      Renaming.edit) <;> rfl

theorem map_bare_filter_document (object id : String) (t : Tree) :
    (((t.parts.filterMap (RecordingCall.ofTree? object)).filterMap fun c => c.toOption).filter
      (·.document == id)).map RecordingCall.bare = callsFor object id [t] := by
  rw [callsFor, Tree.partsOf, Tree.partsOf, List.append_nil]
  induction t.parts with
  | nil => rfl
  | cons u us ih =>
    rw [List.filterMap_cons, List.filterMap_cons, ← ih, callFor?]
    cases h : RecordingCall.ofTree? object u with
    | none => rfl
    | some e =>
      cases e with
      | error failure => rfl
      | ok c => by_cases hdocument : c.document = id <;> simp [Except.toOption, hdocument]

/-- A program that can be read fails the run with the first recording call whose location is broken. If
there is none, every document is spliced or fails as the calls that name it say, in the order of the
documents. These calls are the same in any two programs that the document cannot tell apart. -/
theorem replaceAll_eq_outcomes (h : Script.read? program = some t) (documents : List SourceDocument)
    (options : Options) :
    (replaceAll documents program options =
      match t.parts.findSome? (brokenLocation? options.recordingObject) with
      | some failure => .error failure
      | none =>
        let outcome (d : SourceDocument) := d.outcome (callsFor options.recordingObject d.id [t])
        .ok ⟨documents.filterMap fun d => replaced? (outcome d),
          documents.filterMap fun d => failure? (outcome d)⟩) ∧
      ∀ (id : String) (u : Tree), Alike options.recordingObject id [t] [u] →
        callsFor options.recordingObject id [t] = callsFor options.recordingObject id [u] := by
  refine ⟨?_, fun id u => callsFor_eq_of_alike⟩
  -- an expression fails to be a call only for its location
  have hbroken : ((t.parts.filterMap (RecordingCall.ofTree? options.recordingObject)).findSome?
      fun e => problem? (id e)) = t.parts.findSome? (brokenLocation? options.recordingObject) := by
    induction t.parts with
    | nil => rfl
    | cons u us ih =>
      rw [List.filterMap_cons, List.findSome?_cons, brokenLocation?, ← ih]
      cases RecordingCall.ofTree? options.recordingObject u <;> rfl
  rw [replaceAll, Recovery.read, h]
  simp only [recordingCalls, mapM_eq_findSome?, hbroken]
  cases t.parts.findSome? (brokenLocation? options.recordingObject) with
  | some failure => rfl
  | none =>
    have houtcome (d : SourceDocument) : Recovery.replace ⟨(t.parts.filterMap (RecordingCall.ofTree?
        options.recordingObject)).filterMap fun e => (id e).toOption⟩ d =
          d.outcome (callsFor options.recordingObject d.id [t]) := by
      rw [Recovery.replace_eq_outcome, ← SourceDocument.outcome_bare]
      exact congrArg d.outcome (map_bare_filter_document ..)
    simp only [bind, Except.bind, pure, Except.pure, List.filterMap_map, Function.comp_def, houtcome]

/-- A reference of one document that is no path, and one of another that is renamed. -/
def unrelatedProgram : String :=
  "ns.identifier(\"a\", 2, 3, f());\nns.identifier(\"b\", 2, 3, this.q);"

def unrelatedDocuments : List SourceDocument :=
  [⟨"a", "[[p]]", none⟩, ⟨"b", "[[p]]", none⟩]

/-- The first document is given up, and the second would be replaced as it is without the first statement. -/
theorem replaceAll_eq_outcomes_unrelated :
    ∃ (span : Span) (x y : Tree), Script.read? unrelatedProgram = some (.node .program span [x, y]) ∧
      replaceAll unrelatedDocuments unrelatedProgram ⟨"ns", [], [], false, [], []⟩ =
        .ok ⟨[⟨"b", ⟨"[[q]]", none⟩, 1⟩], [.unsupported "a" ⟨2, 3⟩ .identifier]⟩ ∧
      callsFor "ns" "b" [.node .program span [x, y]] = callsFor "ns" "b" [.node .program span [y]] := by
  have hread : ((Script.read? unrelatedProgram).any fun t =>
      decide (t.label = .program) && decide (t.children.length = 2) &&
      (t.children.head?.any fun x => x.parts.all fun u => (callFor? "ns" "b" u).isNone) &&
      (t.parts.findSome? (brokenLocation? "ns")).isNone &&
      decide (unrelatedDocuments.filterMap (fun d => replaced? (d.outcome (callsFor "ns" d.id [t]))) =
        [⟨"b", ⟨"[[q]]", none⟩, 1⟩]) &&
      decide (unrelatedDocuments.filterMap (fun d => failure? (d.outcome (callsFor "ns" d.id [t]))) =
        [.unsupported "a" ⟨2, 3⟩ .identifier])) = true := by
    decide +kernel
  cases ht : Script.read? unrelatedProgram with
  | none => rw [ht] at hread; cases hread
  | some t =>
    rw [ht] at hread
    simp only [Option.any_some, Bool.and_eq_true, decide_eq_true_eq, Option.isNone_iff_eq_none] at hread
    obtain ⟨⟨⟨⟨⟨hlabel, hlength⟩, hfirst⟩, hbroken⟩, hreplaced⟩, hfailure⟩ := hread
    obtain ⟨label, span, children⟩ := t
    obtain rfl : label = .program := hlabel
    obtain ⟨x, y, rfl⟩ := List.length_eq_two.1 hlength
    simp only [Tree.children, List.head?_cons, Option.any_some, List.all_eq_true,
      Option.isNone_iff_eq_none] at hfirst
    obtain ⟨hall, hcalls⟩ := replaceAll_eq_outcomes ht unrelatedDocuments ⟨"ns", [], [], false, [], []⟩
    refine ⟨span, x, y, rfl, ?_, hcalls "b" _ (.node rfl (.left hfirst (alike_of_bares_eq _ _ rfl)) .nil)⟩
    rw [hall, hbroken, ← hreplaced, ← hfailure]

end Relabel
