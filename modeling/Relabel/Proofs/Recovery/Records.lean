import Relabel.Proofs.Recovery.Calls

/-!
# What recording calls say

`Says object t r`: the expression `t` is a recording call that settles the renaming `r`. This does
not depend on where the parts of `t` stand. A program whose recording calls say some renamings is
read as these: `read_of_says`.
-/

namespace Relabel
open Script
variable {object : String} {t : Tree} {args : List Tree} {i : Nat}

namespace RecordingCall

theorem path?_bare (t : Tree) : path? t.bare = path? t := by
  fun_induction path? t with
  | case1 => rfl
  | case2 => rfl
  | case3 _ _ _ object ih => simp only [Tree.bare, Tree.bares, path?, ih]
  | case4 _ _ object _ _ _ ih => simp only [Tree.bare, Tree.bares, path?, ih]
  | case5 _ t ih => simp only [Tree.bare, Tree.bares, path?, ih]
  | case6 t hthis hidentifier hmember helement hparen =>
    obtain ⟨label, span, children⟩ := t
    cases label with
    | this => exact (hthis _ _ rfl).elim
    | identifier name => exact (hidentifier _ _ _ rfl).elim
    | member name isOptional =>
      rcases children with _ | ⟨c, _ | ⟨d, cs⟩⟩
      · rfl
      · exact (hmember _ _ _ _ rfl).elim
      · rfl
    | element isOptional =>
      rcases children with _ | ⟨c, _ | ⟨⟨l, span', inner⟩, _ | ⟨e, es⟩⟩⟩
      · rfl
      · rfl
      · cases l with
        | string name => exact (helement _ _ _ _ _ _ rfl).elim
        | _ => rfl
      · cases l <;> rfl
    | paren =>
      rcases children with _ | ⟨c, _ | ⟨d, cs⟩⟩
      · rfl
      · exact (hparen _ _ rfl).elim
      · rfl
    | _ => rfl

theorem identifierAt?_bare : identifierAt? (args.map Tree.bare) i = identifierAt? args i := by
  rw [identifierAt?, identifierAt?, List.getElem?_map]
  rcases args[i]? with _ | ⟨label, span, children⟩
  · rfl
  · cases label <;> rfl

theorem stringAt?_bare : stringAt? (args.map Tree.bare) i = stringAt? args i := by
  rw [stringAt?, stringAt?, List.getElem?_map]
  rcases args[i]? with _ | ⟨label, span, children⟩
  · rfl
  · cases label <;> rfl

theorem calledWithAt?_bare : calledWithAt? (args.map Tree.bare) i = calledWithAt? args i := by
  rw [calledWithAt?, calledWithAt?, List.getElem?_map]
  rcases args[i]? with _ | ⟨label, span, _ | ⟨callee, given⟩⟩
  · rfl
  · cases label <;> rfl
  · cases label with
    | call isOptional =>
      rw [Option.map_some, Tree.bare, Tree.bares_eq_map, List.map_cons]
      exact identifierAt?_bare
    | _ => rfl

theorem offsetAt_bare (which : String) :
    offsetAt (args.map Tree.bare) i which = offsetAt args i which := by
  rw [offsetAt, offsetAt, List.getElem?_map]
  rcases args[i]? with _ | ⟨label, span, children⟩
  · rfl
  · cases label <;> rfl

theorem location_bare : location (args.map Tree.bare) = location args := by
  rw [location, location, stringAt?_bare, offsetAt_bare, offsetAt_bare]

/-- A call without the spans of its arguments. -/
def bare (c : RecordingCall) : RecordingCall :=
  { c with args := c.args.map Tree.bare }

theorem reference_bare (c : RecordingCall) : c.bare.reference i = c.reference i := by
  have hpath : (c.bare.args[i]? >>= path?) = (c.args[i]? >>= path?) := by
    rw [bare, List.getElem?_map]
    cases c.args[i]? with
    | none => rfl
    | some t => exact path?_bare t
  rw [reference, reference, hpath]
  rfl

theorem settled_bare (c : RecordingCall) : c.bare.settled = c.settled := by
  have hname : c.bare.settledName = c.settledName := by
    have hidentifier : ∀ i, identifierAt? c.bare.args i = identifierAt? c.args i :=
      fun i => identifierAt?_bare
    have hstring : ∀ i, stringAt? c.bare.args i = stringAt? c.args i := fun i => stringAt?_bare
    have hcalled : ∀ i, calledWithAt? c.bare.args i = calledWithAt? c.args i :=
      fun i => calledWithAt?_bare
    have hbased : ∀ keepsBase, c.bare.basedName keepsBase = c.basedName keepsBase := by
      intro keepsBase
      rw [basedName, basedName, reference_bare, hidentifier, hstring]
      rfl
    rw [settledName, settledName, hbased, hbased, attributeName, attributeName, itemName, itemName,
      reference_bare, hidentifier, hstring, hcalled]
    rfl
  rw [settled, settled, hname]
  rfl

end RecordingCall

/-- An expression is a recording call that settles a renaming. -/
def Says (object : String) (t : Tree) (r : Renaming) : Prop :=
  ∃ c, RecordingCall.ofTree? object t = some (.ok c) ∧ c.document = r.document ∧ c.settled = .ok r

theorem says_iff {r : Renaming} : Says object t r ↔ ∃ name recorder range,
    called? object t = some name ∧ Recorder.ofName? name = some recorder ∧
      RecordingCall.location t.children.tail = .ok (r.document, range) ∧
        (⟨recorder, r.document, range, t.children.tail⟩ : RecordingCall).settled = .ok r := by
  rw [Says, ofTree?_eq]
  constructor
  · rintro ⟨c, hc, hdocument, hsettled⟩
    obtain ⟨name, hname, hc⟩ := Option.bind_eq_some_iff.1 hc
    obtain ⟨recorder, hrecorder, hc⟩ := Option.map_eq_some_iff.1 hc
    split at hc
    · next document range hlocation =>
      injection hc with hc
      subst hc
      subst hdocument
      exact ⟨name, recorder, range, hname, hrecorder, hlocation, hsettled⟩
    · cases hc
  · rintro ⟨name, recorder, range, hname, hrecorder, hlocation, hsettled⟩
    exact ⟨_, by simp only [hname, hrecorder, hlocation, Option.bind_some, Option.map_some], rfl,
      hsettled⟩

theorem says_iff_bare {r : Renaming} : Says object t.bare r ↔ Says object t r := by
  have htail : t.bare.children.tail = t.children.tail.map Tree.bare := by
    rw [Tree.children_bare, List.map_tail]
  have hsettled : ∀ recorder range,
      (⟨recorder, r.document, range, t.children.tail.map Tree.bare⟩ : RecordingCall).settled =
        (⟨recorder, r.document, range, t.children.tail⟩ : RecordingCall).settled :=
    fun recorder range => RecordingCall.settled_bare ⟨recorder, r.document, range, t.children.tail⟩
  simp only [says_iff, called?_bare, htail, RecordingCall.location_bare, hsettled]

/-! ### Programs -/

theorem ofTree?_of_not_isRecording (h : isRecording object t = false) :
    RecordingCall.ofTree? object t = none := by
  rw [isRecording, Option.isSome_eq_false_iff, Option.isNone_iff_eq_none] at h
  rw [ofTree?_eq]
  cases hname : called? object t with
  | none => rfl
  | some name =>
    rw [hname] at h
    rw [Option.bind_some] at h ⊢
    rw [h]
    rfl

theorem filterMap_ofTree? (ts : List Tree) :
    ts.filterMap (RecordingCall.ofTree? object) =
      (ts.filter (isRecording object)).filterMap (RecordingCall.ofTree? object) := by
  rw [List.filterMap_filter]
  refine List.filterMap_congr fun t _ => ?_
  split
  · rfl
  · next h => exact ofTree?_of_not_isRecording (by simpa using h)

variable {rs : List Renaming}

/-- Calls that settle renamings, one each. -/
def Settle (calls : List RecordingCall) (rs : List Renaming) : Prop :=
  List.Forall₂ (fun c r => c.document = r.document ∧ c.settled = .ok r) calls rs

theorem calls_of_says {us : List Tree} (h : List.Forall₂ (Says object) us rs) :
    ∃ calls, us.filterMap (RecordingCall.ofTree? object) = calls.map .ok ∧ Settle calls rs := by
  induction h with
  | nil => exact ⟨[], rfl, .nil⟩
  | cons hsays _ ih =>
    obtain ⟨c, hc, hdocument, hsettled⟩ := hsays
    obtain ⟨calls, hcalls, hsettle⟩ := ih
    refine ⟨c :: calls, ?_, .cons ⟨hdocument, hsettled⟩ hsettle⟩
    rw [List.filterMap_cons, hc, hcalls, List.map_cons]

theorem mapM_id_ok (calls : List RecordingCall) :
    (calls.map Except.ok).mapM id = (.ok calls : Except Failure (List RecordingCall)) := by
  induction calls with
  | nil => rfl
  | cons c calls ih =>
    rw [List.map_cons, List.mapM_cons, ih]
    rfl

theorem map_of_mapM_eq_ok {α β ε : Type} {f : α → Except ε β} {as : List α} {bs : List β}
    (h : as.mapM f = .ok bs) : as.map f = bs.map Except.ok := by
  induction as generalizing bs with
  | nil =>
    obtain rfl := Except.ok.inj h
    rfl
  | cons a as ih =>
    simp only [List.mapM_cons, bind, Except.bind, pure, Except.pure] at h
    split at h
    · cases h
    · next b hb =>
      split at h
      · cases h
      · next bs' hbs =>
        obtain rfl := Except.ok.inj h
        rw [List.map_cons, List.map_cons, hb, ih hbs]

/-- A program whose recording calls settle some renamings is read as calls that settle these. -/
theorem read_of_says {program : String} (ht : Script.read? program = some t)
    (h : List.Forall₂ (Says object) (recordingParts object [t]) rs) :
    ∃ r : Recovery, Recovery.read object program = .ok r ∧ Settle r.calls rs := by
  obtain ⟨calls, hcalls, hsettle⟩ := calls_of_says h
  have hparts : t.parts.filterMap (RecordingCall.ofTree? object) = calls.map .ok := by
    rw [filterMap_ofTree?, ← hcalls, recordingParts, Tree.partsOf, Tree.partsOf, List.append_nil]
  refine ⟨⟨calls⟩, ?_, hsettle⟩
  rw [Recovery.read, ht]
  simp only [recordingCalls, hparts, mapM_id_ok]
  rfl

/-- A document gets the renamings that are meant for it. -/
theorem Settle.renamings {r : Recovery} (h : Settle r.calls rs) (document : String) :
    r.renamings document = .ok (rs.filter (·.document == document)) := by
  rw [Recovery.renamings]
  generalize r.calls = calls at h
  induction h with
  | nil => rfl
  | @cons c x calls rs hsays hrest ih =>
    rw [List.filter_cons, List.filter_cons, hsays.1]
    split
    · rw [List.mapM_cons, ih, hsays.2]
      rfl
    · exact ih

end Relabel
