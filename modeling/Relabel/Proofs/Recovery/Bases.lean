import Relabel.Proofs.Recovery.Records

/-!
# References with a base

Four recorders let a base and its name follow a reference. As long as the base is an identifier and its
name a string (`KeepsBase`), the reference is either given up with its document or gets the name for its
first part (`requotes_of_keepsBase`). A base that was made anything else is not looked at: the reference
is taken as it stands (`settled_of_not_keepsBase`).
-/

namespace Relabel
open RecordingCall (identifierAt? stringAt? path? dotted withoutThis)
variable {object program : String} {r : Recovery} {c : RecordingCall} {parts : List String}

/-- Whether a base and its name may follow the reference of a recorder. -/
def Recorder.takesBase : Recorder → Bool
  | attributeName => false
  | itemProperty => false
  | _ => true

namespace RecordingCall

/-- Something stands where the base and its name are written. -/
def IsBased (c : RecordingCall) : Prop :=
  c.recorder.takesBase = true ∧ 5 < c.args.length

instance (c : RecordingCall) : Decidable c.IsBased :=
  inferInstanceAs (Decidable (_ ∧ _))

/-- The base is an identifier, and its name is a string. -/
def KeepsBase (c : RecordingCall) : Prop :=
  (identifierAt? c.args 4).isSome = true ∧ (stringAt? c.args 5).isSome = true

instance (c : RecordingCall) : Decidable c.KeepsBase :=
  inferInstanceAs (Decidable (_ ∧ _))

/-- The parts of the reference of a call, if it is a path. -/
def parts? (c : RecordingCall) : Option (List String) :=
  c.args[3]? >>= path?

/-- The reference starts with the base and gets the name of the base for it; an entry of an `observe` list
loses it. -/
def Requotes (c : RecordingCall) : Prop :=
  ∃ base quoted rest, identifierAt? c.args 4 = some base ∧ stringAt? c.args 5 = some quoted ∧
    c.parts? = some (base :: rest) ∧
    c.settled = .ok ⟨c.document, c.span, dotted (if c.recorder = .observedPath then rest else quoted :: rest)⟩

theorem settled_of_takesBase (h : c.recorder.takesBase = true) :
    c.settled = (c.basedName (c.recorder ≠ .observedPath)).map fun name => ⟨c.document, c.span, name⟩ := by
  have hname : c.settledName = c.basedName (c.recorder ≠ .observedPath) := by
    rw [settledName]
    cases hrecorder : c.recorder with
    | attributeName => rw [hrecorder] at h; cases h
    | itemProperty => rw [hrecorder] at h; cases h
    | _ => rfl
  rw [settled, hname]
  rfl

theorem basedName_of_parts?_eq_none (keepsBase : Bool) (h : c.parts? = none) :
    c.basedName keepsBase = .error c.unsupported := by
  rw [parts?] at h
  simp only [basedName, reference, h]
  rfl

theorem basedName_of_keepsBase {base quoted : String} {keepsBase : Bool} (hparts : c.parts? = some parts)
    (hbase : identifierAt? c.args 4 = some base) (hquoted : stringAt? c.args 5 = some quoted) :
    c.basedName keepsBase = (c.afterBase parts base).map fun rest =>
      dotted (if keepsBase then quoted :: rest else rest) := by
  rw [parts?] at hparts
  simp only [basedName, reference, hparts, hbase, hquoted]
  rfl

theorem basedName_of_not_keepsBase {keepsBase : Bool} (hparts : c.parts? = some parts) (h : ¬ c.KeepsBase) :
    c.basedName keepsBase = .ok (dotted (withoutThis parts)) := by
  rw [parts?] at hparts
  have hsome {base quoted : String} (hbase : identifierAt? c.args 4 = some base)
      (hquoted : stringAt? c.args 5 = some quoted) : False := h ⟨by rw [hbase]; rfl, by rw [hquoted]; rfl⟩
  simp only [basedName, reference, hparts]
  cases hbase : identifierAt? c.args 4 with
  | none => rfl
  | some base =>
    cases hquoted : stringAt? c.args 5 with
    | none => rfl
    | some quoted => exact (hsome hbase hquoted).elim

/-- With a base and its name, a call gives its document up or puts the name for the base. -/
theorem requotes_of_keepsBase (hbased : c.IsBased) (h : c.KeepsBase ∨ c.parts? = none) :
    (∃ failure, c.settled = .error failure) ∨ c.Requotes := by
  have hsettled := settled_of_takesBase hbased.1
  cases hparts : c.parts? with
  | none =>
    rw [basedName_of_parts?_eq_none _ hparts] at hsettled
    exact .inl ⟨_, hsettled⟩
  | some parts =>
    obtain ⟨hbase, hquoted⟩ := h.resolve_right (by rw [hparts]; simp)
    obtain ⟨base, hbase⟩ := Option.isSome_iff_exists.1 hbase
    obtain ⟨quoted, hquoted⟩ := Option.isSome_iff_exists.1 hquoted
    rw [basedName_of_keepsBase hparts hbase hquoted] at hsettled
    cases hrest : c.afterBase parts base with
    | error failure =>
      rw [hrest] at hsettled
      exact .inl ⟨failure, hsettled⟩
    | ok rest =>
      have hfirst : parts = base :: rest := by
        unfold afterBase at hrest
        split at hrest
        · cases hrest
        · next first _ =>
          split at hrest
          · next heq => rw [heq, Except.ok.inj hrest]
          · cases hrest
      refine .inr ⟨base, quoted, rest, hbase, hquoted, by rw [hparts, hfirst], ?_⟩
      rw [hsettled, hrest]
      by_cases hobserved : c.recorder = .observedPath <;> simp [Except.map, hobserved]

/-- A reference whose base was made something else is taken as it stands. -/
theorem settled_of_not_keepsBase (hbased : c.IsBased) (hparts : c.parts? = some parts) (h : ¬ c.KeepsBase) :
    c.settled = .ok ⟨c.document, c.span, dotted (withoutThis parts)⟩ := by
  rw [settled_of_takesBase hbased.1, basedName_of_not_keepsBase hparts h]
  rfl

end RecordingCall

theorem Recovery.exists_mem_renamings {rs : List Renaming} (hc : c ∈ r.calls)
    (h : r.renamings c.document = .ok rs) : ∃ x ∈ rs, c.settled = .ok x := by
  have hmem : c ∈ r.calls.filter (·.document == c.document) := List.mem_filter.2 ⟨hc, beq_self_eq_true _⟩
  have hsettled : c.settled ∈ rs.map Except.ok := map_of_mapM_eq_ok h ▸ List.mem_map_of_mem hmem
  obtain ⟨x, hx, heq⟩ := List.mem_map.1 hsettled
  exact ⟨x, hx, heq.symm⟩

/-- As long as the base of a reference is an identifier and its name a string, the document of the call is
given up, or the reference starts with the base and the name takes its place among the renamings of the
document. Anything else at the place of the base or of its name leaves a path as it stands. -/
theorem requotes_or_gives_up (hc : c ∈ r.calls) (hbased : c.IsBased) :
    (c.KeepsBase ∨ c.parts? = none →
      (∃ failure, r.renamings c.document = .error failure) ∨
        c.Requotes ∧ ∃ rs, r.renamings c.document = .ok rs ∧ ∃ x ∈ rs, c.settled = .ok x) ∧
      (¬ c.KeepsBase → ∀ parts ∈ c.parts?,
        c.settled = .ok ⟨c.document, c.span, dotted (withoutThis parts)⟩) := by
  refine ⟨fun h => ?_, fun h parts hparts => RecordingCall.settled_of_not_keepsBase hbased hparts h⟩
  cases hrs : r.renamings c.document with
  | error failure => exact .inl ⟨failure, rfl⟩
  | ok rs =>
    obtain ⟨x, hx, hsettled⟩ := Recovery.exists_mem_renamings hc hrs
    refine .inr ⟨(RecordingCall.requotes_of_keepsBase hbased h).resolve_left ?_, rs, rfl, x, hx, hsettled⟩
    rintro ⟨failure, hfailure⟩
    rw [hfailure] at hsettled
    cases hsettled

/-- Two references to properties of `q`, once with the variable as base and once with it in parentheses. -/
def basedProgram : String :=
  "ns.identifier(\"d\", 0, 5, q.name, q, \"row\");\nns.method(\"e\", 7, 9, q.f, (q), \"row\");"

/-- The first of them gets the name for its base, the second is taken as it stands. -/
theorem requotes_or_gives_up_parenthesised :
    ∃ r c c', Recovery.read "ns" basedProgram = .ok r ∧ c ∈ r.calls ∧ c.IsBased ∧ c.KeepsBase ∧ c.Requotes ∧
      c' ∈ r.calls ∧ c'.IsBased ∧ c'.settled = .ok ⟨"e", ⟨7, 9⟩, "q.f"⟩ := by
  have hread : ((Recovery.read "ns" basedProgram).toOption.any fun r =>
      decide (r.calls.map (fun c => (decide c.IsBased, decide c.KeepsBase, c.document, c.span)) =
        [(true, true, "d", ⟨0, 5⟩), (true, false, "e", ⟨7, 9⟩)]) &&
      decide (r.calls.map RecordingCall.parts? = [some ["q", "name"], some ["q", "f"]]) &&
      (r.renamings "d").isOk) = true := by
    decide +kernel
  cases h : Recovery.read "ns" basedProgram with
  | error e => rw [h] at hread; cases hread
  | ok r =>
    rw [h] at hread
    simp only [Except.toOption, Option.any_some, Bool.and_eq_true, decide_eq_true_eq] at hread
    obtain ⟨⟨hcalls, hparts⟩, hrenamings⟩ := hread
    obtain ⟨c, rest, hcalls, hc, hrest⟩ := List.map_eq_cons_iff.1 hcalls
    obtain ⟨c', last, rfl, hc', hlast⟩ := List.map_eq_cons_iff.1 hrest
    obtain rfl := List.map_eq_nil_iff.1 hlast
    simp only [Prod.mk.injEq, decide_eq_true_eq, decide_eq_false_iff_not] at hc hc'
    obtain ⟨hbased, hkeeps, hdocument, -⟩ := hc
    obtain ⟨hbased', hnot, hdocument', hspan'⟩ := hc'
    simp only [hcalls, List.map_cons, List.cons.injEq] at hparts
    have hmem : c ∈ r.calls := hcalls ▸ List.mem_cons_self ..
    have hmem' : c' ∈ r.calls := hcalls ▸ List.mem_cons_of_mem _ (List.mem_cons_self ..)
    refine ⟨r, c, c', rfl, hmem, hbased, hkeeps, ?_, hmem', hbased', ?_⟩
    · refine ((requotes_or_gives_up hmem hbased).1 (.inl hkeeps)).elim (fun hfailure => ?_) And.left
      obtain ⟨failure, hfailure⟩ := hfailure
      rw [hdocument] at hfailure
      rw [hfailure] at hrenamings
      cases hrenamings
    · rw [(requotes_or_gives_up hmem' hbased').2 hnot _ hparts.2.1, hdocument', hspan']
      decide +kernel

end Relabel
