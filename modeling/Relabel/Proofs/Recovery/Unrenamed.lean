import Relabel.Proofs.Extraction.Names
import Relabel.Proofs.Text.Spelling

/-!
# References that keep their names

Where nothing is renamed, every reference of an extraction has the name that its document has at its
span (`slice?_of_mem_references`). A path is the base it was split from and its other parts; an entry of
an `observe` list is a path of the item without the item; a property leads back to the name of its
attribute, if that name is `Hyphened`.
-/

namespace Relabel
open Text
open Markup (Document)
open Fragment (segments isName)
open Script (ne_of_continuesName)
open RecordingCall (dotted)
variable {object path item entry name : String} {q : Qualifier} {r : Reference} {u : Usage}
  {us : List Usage} {fs : List Frame} {f : Frame} {site : Site} {document : Document}
  {d : DocumentUsages} {t : TemplateUsages} {cs : List Char}

/-! ### Paths -/

theorem dotted_segments (path : String) : dotted (segments path) = path := by
  have hparts : (segments path).map String.toList = path.toList.splitOn '.' := by
    rw [segments, List.map_map]
    exact (List.map_congr_left fun cs _ => String.toList_ofList).trans (List.map_id _)
  have hsplit : ['.'].intercalate (path.toList.splitOn '.') = path.toList := List.intercalate_splitOn '.'
  rw [← String.toList_inj, dotted, String.toList_intercalate, hparts]
  exact hsplit

theorem chars_of_isPath (h : IsPath path) : ∀ c ∈ path.toList, Script.continuesName c = true ∨ c = '.' := by
  have hnames : ∀ part ∈ segments path, ∀ c ∈ part.toList, Script.continuesName c = true := by
    intro part hpart c hc
    obtain ⟨d, ds, hds, -, hall⟩ := Fragment.chars_of_isName (h part hpart)
    exact hall c (hds ▸ hc)
  intro c hc
  have hsegments := segments_eq_cons path
  rw [Fragment.toList_of_segments hsegments, Fragment.memberText, List.mem_append] at hc
  rcases hc with hc | hc
  · exact .inl (hnames _ (hsegments ▸ List.mem_cons_self ..) c hc)
  · obtain ⟨part, hpart, hc⟩ := List.mem_flatMap.1 hc
    rcases List.mem_cons.1 hc with rfl | hc
    · exact .inr rfl
    · exact .inl (hnames part (List.mem_of_mem_tail hpart) c hc)

theorem leadingSegment_append (h : isName item = true) (entry : String) :
    leadingSegment (item ++ "." ++ entry) = item := by
  have hnames : ∀ c ∈ item.toList, (c != '.') = true := by
    obtain ⟨c, cs, hcs, -, hall⟩ := Fragment.chars_of_isName h
    rw [hcs]
    exact fun d hd => bne_iff_ne.2 (ne_of_continuesName (hall d hd) (by decide))
  have hdot : ".".toList = ['.'] := rfl
  rw [leadingSegment, String.toList_append, String.toList_append, List.append_assoc, hdot,
    List.singleton_append, List.takeWhile_append_of_pos hnames, List.takeWhile_cons_of_neg (by simp),
    List.append_nil, String.ofList_toList]

/-- The parts behind the first of a path with a first part of its own. -/
theorem dotted_tail_append (h : isName item = true) (entry : String) :
    dotted (segments (item ++ "." ++ entry)).tail = entry := by
  have hpath := dotted_segments (item ++ "." ++ entry)
  have hcons := segments_eq_cons (item ++ "." ++ entry)
  rw [leadingSegment_append h] at hcons
  rw [hcons] at hpath
  cases htail : (segments (item ++ "." ++ entry)).tail with
  | nil =>
    rw [htail] at hpath
    have hlength := congrArg String.length hpath
    have hdot : ".".length = 1 := rfl
    simp only [dotted, String.intercalate_singleton, String.length_append, hdot] at hlength
    omega
  | cons part parts =>
    rw [htail, dotted, String.intercalate_cons_cons] at hpath
    exact (String.append_right_inj _).1 hpath

theorem Qualifier.renamedParts_id (hfits : q.Fits path) :
    q.renamedParts id id path = segments path := by
  cases q with
  | component renameable => exact List.map_id _
  | loop role bound depth =>
    rw [segments_eq_cons path, hfits bound.name rfl]
    simp [Qualifier.renamedParts]
  | item base =>
    rw [segments_eq_cons path, hfits base rfl]
    simp [Qualifier.renamedParts]

/-- An entry of an `observe` list is a path of the item of the innermost loop. -/
theorem Settled.isSome_base? (h : Settled 0 fs (f.item.name ++ "." ++ entry) q)
    (hname : isName f.item.name = true) (hf : fs.getLast? = some f) : q.base?.isSome = true := by
  have hfs : fs = fs.dropLast ++ [f] := (List.dropLast_append_getLast? f hf).symm
  have hknows : f.Knows (leadingSegment (f.item.name ++ "." ++ entry)) :=
    .inl (leadingSegment_append hname entry).symm
  rw [h.resolves.innermost _ f [] hfs hknows (fun g hg => nomatch hg), Frame.qualifier]
  split
  · split <;> rfl
  · rfl

/-! ### References of usages -/

/-- A reference that is recorded for a usage itself, not for one inside it. -/
inductive Reference.Of : Usage → Reference → Prop
  | path {span : Span} {path : String} {q : Qualifier} :
      Reference.Of (.path span path q .expression) (.named span q path)
  | observed {span : Span} {path : String} {q : Qualifier} :
      Reference.Of (.path span path q .observed) (.observed span q path)
  | call {span : Span} {name : String} {q : Qualifier} {args : List Usage} :
      Reference.Of (.call span name q args) (.named span q name)
  | attributeName {span : Span} {tag type property : String} :
      Reference.Of (.attributeName span tag type property) (.attributeName span property)
  | listener {span : Span} {method : String} {q : Qualifier} :
      Reference.Of (.listener span method q) (.named span q method)

mutual

theorem Usage.exists_of_mem_references : ∀ {u : Usage}, r ∈ u.references →
    ∃ fs v, Within [u] fs v ∧ Reference.Of v r
  | .path span p q .expression, h => by
    rw [Usage.references, List.mem_ite_nil_right] at h
    obtain rfl := List.mem_singleton.1 h.2
    exact ⟨[], _, .here (List.mem_singleton_self _), .path⟩
  | .path span p q .observed, h => by
    obtain rfl := List.mem_singleton.1 h
    exact ⟨[], _, .here (List.mem_singleton_self _), .observed⟩
  | .call span name q args, h => by
    rcases List.mem_append.1 h with h | h
    · rw [List.mem_ite_nil_right] at h
      obtain rfl := List.mem_singleton.1 h.2
      exact ⟨[], _, .here (List.mem_singleton_self _), .call⟩
    · obtain ⟨fs, v, hv, hr⟩ := Usage.exists_of_mem_referencesOf h
      exact ⟨fs, v, .argument (List.mem_singleton_self _) hv, hr⟩
  | .literal _, h => by cases h
  | .loop span items frame depth children, h => by
    obtain ⟨fs, v, hv, hr⟩ := Usage.exists_of_mem_referencesOf h
    exact ⟨_, v, .inside (List.mem_singleton_self _) hv, hr⟩
  | .attributeName span tag type property, h => by
    obtain rfl := List.mem_singleton.1 h
    exact ⟨[], _, .here (List.mem_singleton_self _), .attributeName⟩
  | .listener span method q, h => by
    rw [Usage.references, List.mem_ite_nil_right] at h
    obtain rfl := List.mem_singleton.1 h.2
    exact ⟨[], _, .here (List.mem_singleton_self _), .listener⟩
  | .dataFlow .., h => by cases h
  | .callback .., h => by cases h

theorem Usage.exists_of_mem_referencesOf : ∀ {us : List Usage}, r ∈ Usage.referencesOf us →
    ∃ fs v, Within us fs v ∧ Reference.Of v r
  | [], h => by cases h
  | u :: us, h => by
    rcases List.mem_append.1 h with h | h
    · obtain ⟨fs, v, hv, hr⟩ := Usage.exists_of_mem_references h
      exact ⟨fs, v, Usage.within_iff.2 ⟨u, List.mem_cons_self .., hv⟩, hr⟩
    · obtain ⟨fs, v, hv, hr⟩ := Usage.exists_of_mem_referencesOf h
      obtain ⟨w, hw, hwv⟩ := Usage.within_iff.1 hv
      exact ⟨fs, v, Usage.within_iff.2 ⟨w, List.mem_cons_of_mem _ hw, hwv⟩, hr⟩

end

/-- The references of an extraction are recorded for usages of its templates. -/
theorem DocumentUsages.exists_of_mem_references (h : r ∈ d.references) :
    ∃ t ∈ d.templates, ∃ fs u, Within t.usages fs u ∧ Reference.Of u r := by
  obtain ⟨t, ht, hr⟩ := List.mem_flatMap.1 h
  exact ⟨t, ht, Usage.exists_of_mem_referencesOf hr⟩

/-! ### Names -/

/-- A span that an extraction takes for the name of an attribute. -/
def DocumentUsages.NamesAttribute (d : DocumentUsages) (span : Span) : Prop :=
  ∃ t ∈ d.templates, ∃ fs tag type property, Within t.usages fs (.attributeName span tag type property)

/-- The document has at the span of each reference the name of the reference. -/
theorem slice?_of_mem_references (hread : Markup.read name site.source = .ok document)
    (hsize : size site.source.toList < UInt32.size) (h : site.Extracts document d) (hd : d.Named object)
    (hhyphened : ∀ span, d.NamesAttribute span → ∀ text ∈ slice? site.source.toList span, Hyphened text)
    (hr : r ∈ d.references) :
    slice? site.source.toList r.span = some (r.name id id).toList := by
  obtain ⟨t, ht, fs, u, hu, hof⟩ := d.exists_of_mem_references hr
  have hplaced := placed_of_extracts hsize hread h ht hu
  have hsound := sound_of_within hread h hd ht hu
  have hreference {path : String} {q : Qualifier} (hfits : q.Fits path) (span : Span) :
      (Reference.named span q path).name id id = path := by
    rw [Reference.name, Qualifier.renamedParts_id hfits, dotted_segments]
  cases hof with
  | path => rwa [hreference hsound.2.fits]
  | call => rwa [hreference hsound.2.fits]
  | listener => rwa [hreference hsound.2.fits]
  | observed =>
    -- only an entry of an `observe` list is observed
    cases Site.origin_of_within h ht hu with
    | @observed p q f hp hf hq =>
      obtain ⟨gs, _, _, _, _, hloop⟩ := hu.exists_loop (List.mem_of_getLast? hf)
      have hvariable := (hd.usages t ht gs _ hloop .item).1
      have hitem : isName f.item.name = true := Fragment.isName_of_isVariable hvariable
      rw [Reference.name, if_pos (hq.isSome_base? hitem hf), List.map_id, dotted_tail_append hitem]
      exact (hp.occurs.stands hread).slice? hsize
  | attributeName =>
    obtain ⟨text, htext, rfl⟩ := hplaced
    have hhyphened' := hhyphened _ ⟨t, ht, fs, _, _, _, hu⟩ text htext
    rw [Reference.name, List.map_id, dotted_segments, hyphenate_camelCase hhyphened',
      String.toList_ofList]
    exact htext

end Relabel
