import Relabel.Proofs.Fragment.Recordings
import Relabel.Proofs.Recovery.References

/-!
# The byte ranges of recording calls

A recording call names the bytes that its reference stands on (`Phrase.range?`). Every recording call of the
statements of a template does, and the ranges are spans of its recorded references, in order
(`exists_ranges_templateStatements`).
-/

namespace Relabel

/-- The spans of the references of some usages that are recorded. -/
def Usage.recordedSpans (us : List Usage) : List Span :=
  (Usage.referencesOf us).map Reference.span

namespace Usage
@[simp] theorem recordedSpans_nil : recordedSpans [] = [] := rfl

@[simp] theorem recordedSpans_cons (u : Usage) (us : List Usage) :
    recordedSpans (u :: us) = u.references.map Reference.span ++ recordedSpans us := by
  rw [recordedSpans, referencesOf, List.map_append, recordedSpans]

theorem recordedSpans_append (us vs : List Usage) :
    recordedSpans (us ++ vs) = recordedSpans us ++ recordedSpans vs := by
  induction us with
  | nil => rfl
  | cons u us ih => rw [List.cons_append, recordedSpans_cons, ih, recordedSpans_cons, List.append_assoc]

theorem recordedSpans_filter_sublist (p : Usage → Bool) (us : List Usage) :
    (recordedSpans (us.filter p)).Sublist (recordedSpans us) := by
  induction us with
  | nil => exact .refl _
  | cons u us ih =>
    rw [List.filter_cons, recordedSpans_cons]
    split
    · rw [recordedSpans_cons]
      exact (List.Sublist.refl _).append ih
    · exact ih.trans (List.sublist_append_right ..)

end Usage

namespace Fragment
variable {t : Target} {span : Span} {q : Qualifier} {path : String}

/-- The bytes that a recording call names. -/
def Phrase.range? : Phrase → Option Span
  | .call _ (_ :: .number start :: .number stop :: _) => some ⟨start, stop⟩
  | _ => none

/-- The ranges of the recording calls of some statements, in order. -/
def ranges (ss : List Statement) : List (Option Span) :=
  (recordingsOf ss).map Phrase.range?

theorem ranges_nil : ranges [] = [] := rfl

theorem ranges_append (ss ss' : List Statement) : ranges (ss ++ ss') = ranges ss ++ ranges ss' := by
  rw [ranges, recordingsOf_append, List.map_append]
  rfl

theorem ranges_record (t : Target) (recorder : Recorder) (span : Span) (args : List Phrase) :
    ranges [t.record recorder span args] = [some span] := rfl

theorem ranges_referenceRecord (recorder : Recorder) :
    ranges (referenceRecord t recorder span q path) = if q.isRenameable path = true then [some span] else [] := by
  have hbased {base : String} : ranges (((if path = base then none
      else some [q.phrase path, .name base, .quoted base]).map (t.record recorder span)).toList) =
      if (path != base) = true then [some span] else [] := by
    by_cases h : path = base
    · simp [h, ranges_nil]
    · simp [h, ranges_record]
  cases q with
  | component renameable => cases renameable <;> rfl
  | loop role bound depth =>
    cases hrenameable : bound.renameable with
    | true => simp [referenceRecord, referenceArgs?, Qualifier.isRenameable, hrenameable, ranges_record]
    | false =>
      simp only [referenceRecord, referenceArgs?, Qualifier.isRenameable, hrenameable, Bool.false_or,
        Bool.false_eq_true, if_false]
      exact hbased
  | item base =>
    simp only [referenceRecord, referenceArgs?, Qualifier.isRenameable]
    exact hbased

theorem ranges_pathRecord (role : PathRole) : ranges (pathRecord t span path q role) =
    ((Usage.path span path q role).references.map Reference.span).map some := by
  cases role with
  | observed => rfl
  | expression =>
    have hreference : ((Usage.path span path q .expression).references.map Reference.span).map some =
        if q.isRenameable path = true then [some span] else [] := by
      rw [Usage.references]
      split <;> rfl
    rw [hreference]
    cases q with
    | item base =>
      by_cases h : path = base
      · simp [pathRecord, h, Qualifier.isRenameable, ranges_nil]
      · simp [pathRecord, h, Qualifier.isRenameable, ranges_record]
    | component renameable => exact ranges_referenceRecord .identifier
    | loop role bound depth => exact ranges_referenceRecord .identifier

theorem ranges_run (p : Phrase) (ss : List Statement) : ranges (.run p :: ss) = ranges ss := rfl

theorem ranges_elementBlock {tag type : String} {body : Phrase → List Statement} :
    ranges [elementBlock tag type body] = ranges (body (.name (elementVariable type))) := by
  simp only [ranges, elementBlock, recordingsOf, Statement.recordings, List.nil_append, List.append_nil]

theorem ranges_forEach {index item : String} {items : Phrase} (body : List Statement) :
    ranges [.forEach index item items body] = ranges body := by
  rw [ranges, ranges, recordingsOf, Statement.recordings, recordingsOf, List.append_nil]

theorem map_span_named (span : Span) (q : Qualifier) (path : String) (b : Bool) :
    (if b = true then [Reference.named span q path] else []).map Reference.span = if b = true then [span] else [] := by
  cases b <;> rfl

theorem map_some_span_named (span : Span) (q : Qualifier) (path : String) (b : Bool) :
    ((if b = true then [Reference.named span q path] else []).map Reference.span).map some =
      if b = true then [some span] else [] := by
  cases b <;> rfl

mutual

/-- The statements of a usage record its references; a loop without a list has none. -/
theorem ranges_statements_sublist : ∀ u : Usage,
    (ranges (statements t u)).Sublist ((u.references.map Reference.span).map some)
  | .path span path q role => by
    rw [statements, ranges_pathRecord]
  | .call span name q args => by
    rw [statements, List.cons_append, ranges_run, ranges_append, ranges_referenceRecord, Usage.references,
      List.map_append, List.map_append, map_some_span_named]
    exact (List.Sublist.refl _).append (ranges_statementsOf_sublist args)
  | .literal _ => List.nil_sublist _
  | .loop span items frame depth children => by
    rw [statements]
    split
    · exact List.nil_sublist _
    · rw [ranges_forEach]
      exact ranges_statementsOf_sublist children
  | .attributeName span tag type property => by
    rw [statements, ranges_elementBlock]
    exact .refl _
  | .listener span method q => by
    rw [statements, ranges_run, ranges_referenceRecord, Usage.references, map_some_span_named]
  | .dataFlow span tag type property source twoWay => by
    rw [statements, ranges_elementBlock]
    cases twoWay <;> exact List.nil_sublist _
  | .callback kind _ _ _ => by
    rw [statements]
    cases kind <;> exact List.nil_sublist _

theorem ranges_statementsOf_sublist : ∀ us : List Usage,
    (ranges (statementsOf t us)).Sublist ((Usage.recordedSpans us).map some)
  | [] => .refl _
  | u :: us => by
    rw [statementsOf, ranges_append, Usage.recordedSpans_cons, List.map_append]
    exact (ranges_statements_sublist u).append (ranges_statementsOf_sublist us)

end

/-- The function of a template records some of the references, each with its span. -/
theorem exists_ranges_templateStatements (t : Target) (template : TemplateUsages) :
    ∃ spans : List Span, ranges (templateStatements t template) = spans.map some ∧
      spans.Sublist (Usage.recordedSpans template.usages) := by
  have hsub : (ranges (templateStatements t template)).Sublist ((Usage.recordedSpans template.usages).map some) := by
    unfold templateStatements
    split
    · exact List.nil_sublist _
    · refine List.Sublist.trans ?_ (ranges_statementsOf_sublist (t := t) template.usages)
      simp only [ranges, recordingsOf, Statement.recordings, List.nil_append, List.append_nil]
      exact .refl _
  obtain ⟨spans, hspans, hranges⟩ := List.sublist_map_iff.1 hsub
  exact ⟨spans, hranges, hspans⟩

end Fragment

end Relabel
