import Relabel.Proofs.Markup.Carriers
import Relabel.Proofs.Recovery.Unrenamed

/-!
# References lie apart

Two references of an extraction stand on the same bytes or on no common byte (`eq_or_apart_of_mem_references`). Each
is written in one piece of the document (`Written`), and these pieces lie apart. In one text the
references are the names in its bindings, or its words if it has no binding; what a whole attribute
names, blanks apart, is its only word. Names of attributes may overlap, as a listener for a change does
with the property that it is about, so of them it is assumed.
-/

namespace Relabel
open Text
open Markup (Node Document Carrier IsText IsBound IsWord IsTrimmed NamedBy preorderOf)
variable {ns : List Node} {v p : Piece} {s t span : Span} {object name path : String} {cs : List Char}
  {site : Site} {document : Document} {d : DocumentUsages} {r r' : Reference} {start : Nat}

/-! ### Words -/

namespace Site
variable {word blanks : List Char}

theorem wordsFrom_blanks (h : ∀ c ∈ blanks, isBlank c = true) :
    wordsFrom start [] (blanks ++ cs) = wordsFrom (start + size blanks) [] cs := by
  induction blanks generalizing start with
  | nil => rfl
  | cons c blanks ih =>
    have hrest := @ih (start + c.utf8Size) fun d hd => h d (List.mem_cons_of_mem c hd)
    rw [List.cons_append, wordsFrom, if_pos (h c (List.mem_cons_self ..)), size_cons, ← Nat.add_assoc,
      ← hrest]
    rfl

theorem wordsFrom_append {w : List Char} (h : ∀ c ∈ w, isBlank c = false) :
    wordsFrom start word (w ++ cs) = wordsFrom start (w.reverse ++ word) cs := by
  induction w generalizing word with
  | nil => rfl
  | cons c w ih =>
    have hblank : ¬ isBlank c = true := Bool.eq_false_iff.1 (h c (List.mem_cons_self ..))
    rw [List.cons_append, wordsFrom, if_neg hblank, ih fun d hd => h d (List.mem_cons_of_mem c hd)]
    simp

theorem wordsFrom_end (h : ∀ c ∈ blanks, isBlank c = true) (hne : word ≠ []) :
    wordsFrom start word blanks = [.located start word.reverse] := by
  have hword : ¬ word.isEmpty = true := fun hempty => hne (List.isEmpty_iff.1 hempty)
  cases blanks with
  | nil => rw [wordsFrom, if_neg hword]
  | cons c blanks =>
    have hrest := @wordsFrom_blanks [] (start + size word + c.utf8Size) blanks fun d hd =>
      h d (List.mem_cons_of_mem c hd)
    rw [List.append_nil] at hrest
    rw [wordsFrom, if_pos (h c (List.mem_cons_self ..)), hrest]
    simp only [if_neg hword]
    rfl

/-- What is one word, blanks apart, has no other word. -/
theorem wordsFrom_trimmed (hword : ∀ c ∈ (trimmed v).text.toList, isBlank c = false)
    (hne : (trimmed v).text.toList ≠ []) :
    wordsFrom v.span.start [] v.text.toList = [trimmed v] := by
  obtain ⟨blanks, htext, hblanks⟩ := exists_trim_append v.text.toList
  rw [trimmed, Piece.trimmedAt, Piece.toList_text_located] at hword hne
  rw [htext, List.append_assoc, wordsFrom_blanks fun c hc => List.all_eq_true.1 List.all_takeWhile c hc,
    wordsFrom_append hword, wordsFrom_end hblanks (by simpa using hne)]
  simp [trimmed, Piece.trimmedAt, lead]

end Site

theorem notBlank_of_isPath (h : IsPath path) :
    ∀ c ∈ path.toList, isBlank c = false ∧ c ≠ '[' ∧ c ≠ '\x7b' := by
  intro c hc
  rcases chars_of_isPath h c hc with hname | rfl
  · exact ⟨Script.notBlank_of_continuesName hname, Script.ne_of_continuesName hname (by decide),
      Script.ne_of_continuesName hname (by decide)⟩
  · decide

theorem toList_ne_nil_of_isPath (h : IsPath path) : path.toList ≠ [] := by
  have hname := h _ (segments_eq_cons path ▸ List.mem_cons_self ..)
  obtain ⟨c, cs, hcs, -⟩ := Fragment.chars_of_isName hname
  rw [Fragment.toList_of_segments (segments_eq_cons path), hcs]
  simp

/-! ### Names in a text -/

/-- The pieces of a text that may name something: the names in its bindings, or its words if it has no
binding. -/
def Piece.names (v : Piece) : List Piece :=
  let bindings := Binding.findAll v.text v.span.start
  if bindings = [] then Site.wordsFrom v.span.start [] v.text.toList else bindings.flatMap Binding.names

theorem Piece.ordered_names (hfit : v.span.start + size v.text.toList < UInt32.size) :
    v.names.Pairwise Piece.Before := by
  simp only [Piece.names]
  split
  · exact (Site.ordered_wordsFrom hfit).imp Piece.Ahead.before
  · exact (Binding.ordered_names hfit).imp Piece.Ahead.before

theorem Piece.stands_of_mem_names (hp : p ∈ v.names) : p.Stands v.span.start v.text.toList := by
  simp only [Piece.names] at hp
  split at hp
  · exact Site.stands_wordsFrom hp
  · obtain ⟨b, hb, hp⟩ := List.mem_flatMap.1 hp
    exact Binding.stands_of_mem_names hb hp

namespace Markup

theorem IsBound.exists_names (h : IsBound ns p) : ∃ v, IsText ns v ∧ p ∈ v.names := by
  obtain ⟨v, hv, hp⟩ := h
  refine ⟨v, hv, ?_⟩
  have hne : Binding.findAll v.text v.span.start ≠ [] := fun hnil => by
    rw [hnil] at hp
    cases hp
  simpa only [Piece.names, if_neg hne] using hp

theorem IsWord.exists_names (h : IsWord ns p) : ∃ v, IsText ns v ∧ p ∈ v.names := by
  obtain ⟨v, hv, hnil, hp⟩ := h
  exact ⟨v, hv, by simpa only [Piece.names, if_pos hnil] using hp⟩

theorem IsTrimmed.exists_names (h : IsTrimmed ns p) (hpath : IsPath p.text) :
    ∃ v, IsText ns v ∧ p ∈ v.names := by
  obtain ⟨v, hv, rfl⟩ := h
  refine IsWord.exists_names ⟨v, hv, ?_, ?_⟩
  · obtain ⟨blanks, htext, hblanks⟩ := exists_trim_append v.text.toList
    have hopener {c : Char} (h : isBlank c = true) : c ≠ '[' ∧ c ≠ '\x7b' := by
      constructor <;> rintro rfl <;> exact absurd h (by decide)
    refine Binding.scan_eq_nil fun c hc => ?_
    rw [htext, List.mem_append, List.mem_append] at hc
    rcases hc with (hc | hc) | hc
    · exact hopener (List.all_eq_true.1 List.all_takeWhile c hc)
    · rw [Site.trimmed, Piece.trimmedAt] at hpath
      exact (notBlank_of_isPath hpath c (by rwa [Piece.toList_text_located])).2
    · exact hopener (hblanks c hc)
  · rw [Site.wordsFrom_trimmed (fun c hc => (notBlank_of_isPath hpath c hc).1)
      (toList_ne_nil_of_isPath hpath)]
    exact List.mem_singleton_self _

theorem IsText.mem_carriers (hv : IsText ns v) :
    Carrier.text v ∈ (preorderOf ns).flatMap Node.carriers := by
  rcases hv with hv | ⟨head, children, he, a, ha, hv⟩
  · exact List.mem_flatMap.2 ⟨_, hv, List.mem_singleton_self _⟩
  · refine List.mem_flatMap.2 ⟨_, he, List.mem_flatMap.2 ⟨a, ha, ?_⟩⟩
    rw [Attribute.carriers, hv]
    exact List.mem_cons_of_mem _ (List.mem_singleton_self _)

end Markup

/-! ### References -/

/-- The piece of a document in which a reference is written: a name in a text, or a part of the name of an
attribute. -/
inductive Written (ns : List Node) (d : DocumentUsages) : Span → Prop
  | text {v p : Piece} (hv : Carrier.text v ∈ (preorderOf ns).flatMap Node.carriers) (hp : p ∈ v.names)
      (hfit : v.span.start + size v.text.toList < UInt32.size) (hinside : p.Inside v) : Written ns d p.span
  | name {p : Piece} {span : Span} (hp : Carrier.name p ∈ (preorderOf ns).flatMap Node.carriers)
      (hstart : p.span.start ≤ span.start) (hstop : span.stop ≤ p.span.stop)
      (hname : d.NamesAttribute span) : Written ns d span

theorem Span.Apart.of_inside {s' t' : Span} (h : s'.Apart t') (hs : s'.start ≤ s.start ∧ s.stop ≤ s'.stop)
    (ht : t'.start ≤ t.start ∧ t.stop ≤ t'.stop) : s.Apart t := by
  unfold Apart at *
  omega

/-- Two references stand on the same bytes or on no common byte. -/
theorem Written.eq_or_apart (hfit : size site.source.toList < UInt32.size)
    (hread : Markup.read name site.source = .ok document)
    (hapart : ∀ s t, d.NamesAttribute s → d.NamesAttribute t → s = t ∨ s.Apart t)
    (hs : Written document.children d s) (ht : Written document.children d t) : s = t ∨ s.Apart t := by
  have hcarriers {c e : Carrier} := Markup.eq_or_apart_of_mem_carriers (c := c) (e := e) hfit hread
  cases hs with
  | @text v p hv hp hfits hin =>
    cases ht with
    | @text w q hw hq _ hin' =>
      rcases hcarriers hv hw with heq | h
      · cases heq
        exact (Span.eq_or_apart (Piece.ordered_names hfits) hp hq).imp (congrArg Piece.span) id
      · exact .inr (h.of_inside hin hin')
    | name hq hstart hstop _ =>
      rcases hcarriers hv hq with heq | h
      · cases heq
      · exact .inr (h.of_inside hin ⟨hstart, hstop⟩)
  | name hp hstart hstop hname =>
    cases ht with
    | text hw hq _ hin' =>
      rcases hcarriers hp hw with heq | h
      · cases heq
      · exact .inr (h.of_inside ⟨hstart, hstop⟩ hin')
    | name _ _ _ hname' => exact hapart _ _ hname hname'

/-- The references of an extraction are written in its document, if their names are identifiers. -/
theorem written_of_mem_references (hfit : size site.source.toList < UInt32.size)
    (hread : Markup.read name site.source = .ok document) (h : site.Extracts document d) (hd : d.Named object) (hr : r ∈ d.references) :
    Written document.children d r.span := by
  obtain ⟨t, ht, fs, u, hu, hof⟩ := d.exists_of_mem_references hr
  have horigin := Site.origin_of_within h ht hu
  have hnamed := hd.usages t ht fs u hu
  have htext {p : Piece} (hp : ∃ v, IsText document.children v ∧ p ∈ v.names) :
      Written document.children d p.span := by
    obtain ⟨v, hv, hp⟩ := hp
    exact .text hv.mem_carriers hp ((hv.stands hread).fits (by omega)) ((hv.stands hread).inside (by omega) (Piece.stands_of_mem_names hp))
  cases hof with
  | path =>
    cases horigin with
    | path hp => exact htext hp.exists_names
    | variableName hp => exact htext (hp.isTrimmed.exists_names hnamed)
    | callbackName hp => exact htext (hp.isTrimmed.exists_names hnamed)
  | observed =>
    cases horigin with
    | observed hp => exact htext hp.isWord.exists_names
  | call =>
    cases horigin with
    | call hp => exact htext hp.exists_names
  | listener =>
    cases horigin with
    | listener hp => exact htext (hp.isTrimmed.exists_names hnamed)
  | attributeName =>
    cases horigin with
    | @attributeName head children a x part y _ _ he ha hname =>
      have hstands := ((Markup.stands_of_read hread _ he).on ha).name
      have hpart := Piece.stands_located a.name.span.start x part y
      rw [← hname] at hpart
      have hinside := hstands.inside (by omega) hpart
      exact .name (Markup.mem_carriers_of_name he ha) hinside.1 hinside.2 ⟨t, ht, fs, _, _, _, hu⟩

/-- Two references of an extraction stand on the same bytes or on no common byte, if the names of
attributes do. -/
theorem eq_or_apart_of_mem_references (hfit : size site.source.toList < UInt32.size)
    (hread : Markup.read name site.source = .ok document) (h : site.Extracts document d) (hd : d.Named object)
    (hapart : ∀ s t, d.NamesAttribute s → d.NamesAttribute t → s = t ∨ s.Apart t)
    (hr : r ∈ d.references) (hr' : r' ∈ d.references) : r.span = r'.span ∨ r.span.Apart r'.span :=
  (written_of_mem_references hfit hread h hd hr).eq_or_apart hfit hread hapart
    (written_of_mem_references hfit hread h hd hr')

end Relabel
