import Relabel.Proofs.Fragment.Syntax
import Relabel.Proofs.Script.Renamed
import Relabel.Recovery

/-!
# Recording calls of a renamed program

A renamer gives every property its new name and every variable the one it has at its place; in one
recording call that is one name for each variable (`Renamed`). The recording calls of a program that
was renamed are those of the program, renamed: `Renamed.recordingParts_eq`.
-/

namespace Relabel
open Script
variable {object : String} {s v : String → String} {t t' u : Tree} {ts ts' : List Tree}
  {vs : List (String → String)}

/-- The functions of the recording object that do not record. -/
def helperNames : List String :=
  ["domRepeatItem", "domRepeatSort", "domRepeatFilter", "createElement", "sink"]

/-- The functions that are called of the recording object. An object that is called like the function
that holds a template is called like this function too. -/
def functionNames (object : String) : List String :=
  Recorder.all.map Recorder.name ++ helperNames ++ if object = "renameFn" then ["call"] else []

/-- A renaming of properties that leaves the functions of the recording object alone. -/
def KeepsFunctions (object : String) (s : String → String) : Prop :=
  ∀ n ∈ functionNames object, s n = n

instance (object : String) (s : String → String) : Decidable (KeepsFunctions object s) :=
  inferInstanceAs (Decidable (∀ n ∈ functionNames object, s n = n))

/-- A renaming of variables that leaves the recording object alone and gives no other variable its
name, and none the name `this`. -/
structure KeepsObject (object : String) (v : String → String) : Prop where
  fixed : v object = object
  only : ∀ n, v n = object → n = object
  this : ∀ n, v n = "this" → n = "this"

theorem keepsFunctions_id : KeepsFunctions object id :=
  fun _ _ => rfl

theorem keepsObject_id : KeepsObject object id :=
  ⟨rfl, fun _ h => h, fun _ h => h⟩

/-! ### Calls of the object -/

/-- The property of the object that an expression is. -/
def property? (object : String) (t : Tree) : Option String :=
  match t.label with
  | .member name _ => if t.children.map Tree.label = [.identifier object] then some name else none
  | _ => none

/-- The function of the object that an expression calls. -/
def called? (object : String) (t : Tree) : Option String :=
  match t.label with
  | .call _ => t.children.head?.bind (property? object)
  | _ => none

/-- Whether an expression calls a recorder of the object. -/
def isRecording (object : String) (t : Tree) : Bool :=
  ((called? object t).bind Recorder.ofName?).isSome

/-- The recording calls in some trees. -/
def recordingParts (object : String) (ts : List Tree) : List Tree :=
  (Tree.partsOf ts).filter (isRecording object)

/-- The functions of the object that some trees call are functions that it has. -/
def CallsFunctions (object : String) (ts : List Tree) : Prop :=
  ∀ u ∈ Tree.partsOf ts, ∀ name ∈ called? object u, name ∈ functionNames object

theorem ofTree?_eq (t : Tree) :
    RecordingCall.ofTree? object t = (called? object t).bind fun name =>
      (Recorder.ofName? name).map fun recorder =>
        match RecordingCall.location t.children.tail with
        | .ok (document, range) => .ok ⟨recorder, document, range, t.children.tail⟩
        | .error problem => .error (.lostLocation recorder t.span.start problem) := by
  rw [RecordingCall.ofTree?.eq_def]
  split
  · next isOptional span name isOptional' span' base span'' inner args =>
    have hcalled : called? object (.node (.call isOptional) span
        (.node (.member name isOptional') span' [.node (.identifier base) span'' inner] :: args)) =
          if base = object then some name else none := by
      simp [called?, property?, Tree.label, Tree.children]
    rw [hcalled]
    by_cases hbase : base = object
    · simp only [if_pos hbase, guard, Option.bind_eq_bind, Option.pure_def, Option.bind_some]
      cases Recorder.ofName? name with
      | none => rfl
      | some recorder =>
        simp only [Option.bind_some, Option.map_some, Tree.children, List.tail_cons]
        cases RecordingCall.location args with
        | ok found => rfl
        | error problem => rfl
    · simp only [if_neg hbase, guard]
      rfl
  · next hnot =>
    -- any other shape is no call of a member of `object`
    have hnone : called? object t = none := by
      rw [called?.eq_def]
      split
      · next isOptional hlabel =>
        obtain ⟨label, span, children⟩ := t
        rcases children with _ | ⟨⟨l, span', inner⟩, args⟩
        · rfl
        · rw [Tree.children, List.head?_cons, Option.bind_some, property?.eq_def]
          split
          · next name isOptional' hmember =>
            refine if_neg fun hbase => ?_
            rw [Tree.children, List.map_eq_singleton_iff] at hbase
            obtain ⟨⟨l', span'', cs⟩, rfl, hobject⟩ := hbase
            simp only [Tree.label] at hlabel hmember hobject
            subst hlabel hmember hobject
            exact (hnot _ _ _ _ _ _ _ _ _ rfl).elim
          · rfl
      · rfl
    rw [hnone]
    rfl

theorem property?_bare (t : Tree) : property? object t.bare = property? object t := by
  have hlabels : (t.children.map Tree.bare).map Tree.label = t.children.map Tree.label := by
    rw [List.map_map]
    exact List.map_congr_left fun u _ => Tree.label_bare u
  rw [property?, property?, Tree.label_bare, Tree.children_bare, hlabels]

theorem called?_bare (t : Tree) : called? object t.bare = called? object t := by
  have hbare : property? object ∘ Tree.bare = property? object := funext property?_bare
  rw [called?, called?, Tree.label_bare, Tree.children_bare, List.head?_map, Option.bind_map, hbare]

theorem isRecording_bare (t : Tree) : isRecording object t.bare = isRecording object t := by
  rw [isRecording, isRecording, called?_bare]

theorem recordingParts_cons (t : Tree) (ts : List Tree) :
    recordingParts object (t :: ts) = recordingParts object [t] ++ recordingParts object ts := by
  simp [recordingParts, Tree.partsOf]

theorem recordingParts_single (t : Tree) :
    recordingParts object [t] =
      (if isRecording object t then [t] else []) ++ recordingParts object t.children := by
  obtain ⟨label, span, children⟩ := t
  simp only [recordingParts, Tree.partsOf, Tree.parts, List.append_nil, List.filter_cons, Tree.children]
  split <;> rfl

/-! ### Renamed trees -/

/-- `ts'` are `ts` after properties were renamed by `s` and variables place by place; `vs` are the
renamings of variables in the recording calls, one for each. -/
inductive Renamed (object : String) (s : String → String) :
    List (String → String) → List Tree → List Tree → Prop
  | nil : Renamed object s [] [] []
  /-- All variables of a tree are renamed by one function. -/
  | whole {v : String → String} {vs : List (String → String)} {t t' : Tree} {ts ts' : List Tree}
      (hv : KeepsObject object v) (ht : t'.bare = (t.renamed s v).bare) (hts : Renamed object s vs ts ts') :
      Renamed object s (List.replicate (recordingParts object [t]).length v ++ vs) (t :: ts)
        (t' :: ts')
  /-- The parts of a tree that is no recording call are renamed each in its own way. -/
  | parts {v : String → String} {vs ws : List (String → String)} {t t' : Tree} {ts ts' : List Tree}
      (hv : KeepsObject object v) (hlabel : t'.label = t.label.renamed s v) (hnot : isRecording object t = false)
      (hchildren : Renamed object s vs t.children t'.children)
      (hts : Renamed object s ws ts ts') : Renamed object s (vs ++ ws) (t :: ts) (t' :: ts')

namespace Renamed

theorem of_bares (hv : KeepsObject object v) (h : ts'.map Tree.bare = (ts.map (Tree.renamed s v)).map Tree.bare) :
    Renamed object s (List.replicate (recordingParts object ts).length v) ts ts' := by
  induction ts generalizing ts' with
  | nil =>
    rw [List.map_nil, List.map_nil, List.map_eq_nil_iff] at h
    subst h
    exact .nil
  | cons t ts ih =>
    rw [List.map_cons, List.map_cons, List.map_eq_cons_iff] at h
    obtain ⟨t', ts', rfl, ht, hts⟩ := h
    rw [recordingParts_cons, List.length_append, List.replicate_add]
    exact .whole hv ht (ih hts)

/-- A renamed tree has the renamed label and renamed children. -/
theorem uncons (h : Renamed object s vs (t :: ts) (t' :: ts')) :
    (∃ v, KeepsObject object v ∧ t'.label = t.label.renamed s v) ∧
      (∃ vs, Renamed object s vs t.children t'.children) ∧ ∃ vs, Renamed object s vs ts ts' := by
  cases h with
  | whole hv ht hts =>
    refine ⟨⟨_, hv, ?_⟩, ⟨_, of_bares hv ?_⟩, _, hts⟩
    · rw [← Tree.label_bare, ht, Tree.label_bare, Tree.label_renamed]
    · rw [← Tree.children_bare, ht, Tree.children_bare, Tree.children_renamed]
  | parts hv hlabel hnot hchildren hts => exact ⟨⟨_, hv, hlabel⟩, ⟨_, hchildren⟩, _, hts⟩

end Renamed

theorem renamed_eq_identifier {l : Label} (hv : KeepsObject object v) :
    l.renamed s v = .identifier object ↔ l = .identifier object := by
  constructor
  · intro h
    cases l <;> simp only [Label.renamed, Label.identifier.injEq, reduceCtorEq] at h
    rw [hv.only _ h]
  · rintro rfl
    rw [Label.renamed, hv.fixed]

namespace Renamed

theorem labels_iff (h : Renamed object s vs ts ts') :
    ts'.map Tree.label = [.identifier object] ↔ ts.map Tree.label = [.identifier object] := by
  have hlength : ts'.length = ts.length := by
    induction h with
    | nil => rfl
    | whole hv ht hts ih => rw [List.length_cons, List.length_cons, ih]
    | parts hv hlabel hnot hchildren hts ihc ih => rw [List.length_cons, List.length_cons, ih]
  rcases ts with _ | ⟨t, _ | ⟨u, ts⟩⟩ <;> rcases ts' with _ | ⟨t', _ | ⟨u', ts'⟩⟩ <;>
    simp only [List.length_cons, List.length_nil] at hlength <;> try omega
  · rfl
  · obtain ⟨⟨v, hv, hlabel⟩, -⟩ := h.uncons
    simp only [List.map_cons, List.map_nil, List.cons.injEq, and_true, hlabel, renamed_eq_identifier hv]
  · simp

theorem property?_eq (h : Renamed object s vs (t :: ts) (t' :: ts')) :
    property? object t' = (property? object t).map s := by
  obtain ⟨⟨v, hv, hlabel⟩, ⟨vs, hchildren⟩, -⟩ := h.uncons
  rw [property?, property?, hlabel]
  cases t.label <;> try rfl
  simp only [Label.renamed, hchildren.labels_iff]
  split <;> rfl

theorem called?_eq (h : Renamed object s vs (t :: ts) (t' :: ts')) :
    called? object t' = (called? object t).map s := by
  obtain ⟨⟨v, hv, hlabel⟩, ⟨vs, hchildren⟩, -⟩ := h.uncons
  rw [called?, called?, hlabel]
  cases t.label <;> try rfl
  simp only [Label.renamed]
  generalize t.children = cs, t'.children = cs' at hchildren
  cases hchildren with
  | nil => rfl
  | whole hv ht hts => exact (Renamed.whole hv ht hts).property?_eq
  | parts hv hlabel hnot hchildren hts => exact (Renamed.parts hv hlabel hnot hchildren hts).property?_eq

theorem isRecording_eq (hs : KeepsFunctions object s) (h : Renamed object s vs (t :: ts) (t' :: ts'))
    (hcalls : ∀ name ∈ called? object t, name ∈ functionNames object) :
    isRecording object t' = isRecording object t := by
  rw [isRecording, isRecording, h.called?_eq]
  cases hname : called? object t with
  | none => rfl
  | some name => rw [Option.map_some, hs name (hcalls name hname)]

end Renamed

theorem zipWith_replicate_length {α β γ : Type} (f : α → β → γ) (a : α) (bs : List β) :
    List.zipWith f (List.replicate bs.length a) bs = bs.map (f a) := by
  induction bs with
  | nil => rfl
  | cons b bs ih => rw [List.length_cons, List.replicate_succ, List.zipWith_cons_cons, ih, List.map_cons]

theorem recordingParts_of_bare (hs : KeepsFunctions object s) (hv : KeepsObject object v)
    (h : t'.bare = (t.renamed s v).bare) (hcalls : CallsFunctions object [t]) :
    (recordingParts object [t']).map Tree.bare =
      (recordingParts object [t]).map fun u => (u.renamed s v).bare := by
  have hparts : t'.parts.map Tree.bare = t.parts.map fun u => (u.renamed s v).bare := by
    rw [← Tree.parts_bare, h, Tree.parts_bare, Tree.parts_renamed, List.map_map]
    rfl
  have hfilter : ∀ us : List Tree, (us.filter (isRecording object)).map Tree.bare =
      (us.map Tree.bare).filter (isRecording object) := by
    intro us
    rw [List.filter_map]
    congr 2
    exact funext fun u => (isRecording_bare u).symm
  simp only [recordingParts, Tree.partsOf, List.append_nil]
  rw [hfilter, hparts, List.filter_map]
  congr 1
  refine List.filter_congr fun u hu => ?_
  rw [Function.comp_apply, isRecording_bare]
  refine (Renamed.whole hv rfl .nil).isRecording_eq hs (hcalls u ?_)
  rwa [Tree.partsOf, Tree.partsOf, List.append_nil]

/-- The recording calls of renamed trees are the recording calls of the trees, each renamed by its
own renaming of variables. -/
theorem Renamed.recordingParts_eq (hs : KeepsFunctions object s) (h : Renamed object s vs ts ts')
    (hcalls : CallsFunctions object ts) :
    vs.length = (recordingParts object ts).length ∧
      (recordingParts object ts').map Tree.bare =
        List.zipWith (fun v u => (u.renamed s v).bare) vs (recordingParts object ts) := by
  induction h with
  | nil => exact ⟨rfl, rfl⟩
  | @whole v vs t t' ts ts' hv ht hts ih =>
    have hhead : CallsFunctions object [t] := fun u hu => hcalls u (by simp_all [Tree.partsOf])
    obtain ⟨hlength, hparts⟩ := ih fun u hu => hcalls u (by simp_all [Tree.partsOf])
    rw [recordingParts_cons t ts, recordingParts_cons t' ts', List.map_append]
    refine ⟨by simp [hlength], ?_⟩
    rw [List.zipWith_append (by simp), hparts, recordingParts_of_bare hs hv ht hhead,
      zipWith_replicate_length]
  | @parts v vs ws t t' ts ts' hv hlabel hnot hchildren hts ihc ih =>
    have hpartsOf : Tree.partsOf (t :: ts) = t :: (Tree.partsOf t.children ++ Tree.partsOf ts) := by
      obtain ⟨label, span, children⟩ := t
      rfl
    obtain ⟨hlengthc, hpartsc⟩ := ihc fun u hu => hcalls u (by simp [hpartsOf, hu])
    obtain ⟨hlength, hparts⟩ := ih fun u hu => hcalls u (by simp [hpartsOf, hu])
    have hnot' : isRecording object t' = false := by
      rw [(Renamed.parts hv hlabel hnot hchildren hts).isRecording_eq hs
        (hcalls t (by simp [hpartsOf])), hnot]
    rw [recordingParts_cons t ts, recordingParts_cons t' ts', List.map_append, recordingParts_single,
      recordingParts_single t', hnot, hnot']
    refine ⟨by simp [hlength, hlengthc], ?_⟩
    simp [List.zipWith_append hlengthc, hparts, hpartsc]

end Relabel
