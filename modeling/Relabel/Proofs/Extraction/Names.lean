import Relabel.Proofs.Extraction.Offsets
import Relabel.Proofs.Fragment.Answers

/-!
# Templates with the names of a script

If all names of an extraction are identifiers (`DocumentUsages.Named`), what it emits can be read: a path
starts with the variable that it is qualified by, which is a variable of a loop around it, and spans are
32-bit offsets. So the templates of the extraction are sound (`templateSound_of_extracts`).
-/

namespace Relabel
open Text
open Markup (Document)
open Fragment (isName isVariable segments literal? InComment TemplateSound AllSound)
variable {object name id base : String} {q : Qualifier} {fs : List Frame} {f : Frame} {u : Usage}
  {us : List Usage} {k : Nat} {site : Site} {document : Document} {d : DocumentUsages}
  {t : TemplateUsages}

/-- The names of a usage are dotted lists of identifiers, the variables of a loop are identifiers and not
the recording object, arguments are literals of a script, and types can stand in a comment. -/
def Usage.Named (object : String) : Usage → Prop
  | .path _ name _ _ => IsPath name
  | .call _ name _ _ => IsPath name
  | .literal text => (literal? text).isSome = true
  | .loop _ _ frame _ _ =>
    ∀ role, isVariable (frame.variable role).name = true ∧ (frame.variable role).name ≠ object
  | .attributeName _ _ type property => InComment type ∧ IsPath property
  | .listener _ method _ => IsPath method
  | .dataFlow _ _ type property _ _ => InComment type ∧ IsPath property
  | .callback .. => True

/-- All names of an extraction are identifiers of a script. -/
structure DocumentUsages.Named (object : String) (d : DocumentUsages) : Prop where
  isVariable_object : isVariable object = true
  typeName : ∀ t ∈ d.templates, InComment t.typeName
  usages : ∀ t ∈ d.templates, ∀ fs u, Within t.usages fs u → u.Named object

/-! ### Qualifiers -/

/-- The variables of the loops around a usage. -/
theorem Within.exists_loop (h : Within us fs u) (hf : f ∈ fs) :
    ∃ gs span items depth children, Within us gs (.loop span items f depth children) := by
  induction h with
  | here => cases hf
  | argument hc _ ih =>
    obtain ⟨gs, span, items, depth, children, hl⟩ := ih hf
    exact ⟨gs, span, items, depth, children, .argument hc hl⟩
  | items hl _ ih =>
    obtain ⟨gs, span, items, depth, children, hl'⟩ := ih hf
    exact ⟨gs, span, items, depth, children, .items hl hl'⟩
  | inside hl _ ih =>
    rcases List.mem_cons.1 hf with rfl | hf
    · exact ⟨[], _, _, _, _, .here hl⟩
    · obtain ⟨gs, span, items, depth, children, hl'⟩ := ih hf
      exact ⟨_, span, items, depth, children, .inside hl hl'⟩

theorem Frame.name_of_bound? {role : LoopRole} {bound : LoopVariable}
    (h : f.bound? name = some (role, bound)) : (f.variable role).name = name ∧ bound.name = name := by
  unfold Frame.bound? at h
  split at h
  · next hname =>
    cases h
    exact ⟨hname, hname⟩
  · split at h
    · next hname =>
      cases h
      exact ⟨hname, hname⟩
    · cases h

/-- A name with a base starts with it, and the base is a variable of a loop around the name. -/
theorem Settled.eq_base (h : Settled k fs name q) (hbase : base ∈ q.base?) :
    leadingSegment name = base ∧ ∃ f ∈ fs, ∃ role, (f.variable role).name = base := by
  obtain ⟨q', hq', rfl⟩ := h
  have hsettle : (q'.settle k).base? = q'.base? := by
    unfold Qualifier.settle
    split
    · split <;> rfl
    · rfl
  rw [hsettle] at hbase
  unfold Looked at hq'
  split at hq'
  · next hfound =>
    subst hq'
    obtain ⟨inner, f, outer, hframes, hbound, -⟩ := Scope.exists_of_innermost? hfound
    obtain ⟨hvariable, hname⟩ := Frame.name_of_bound? hbound
    have hf : f ∈ fs := List.mem_reverse.1 (by rw [hframes]; simp)
    obtain rfl := Option.some.inj hbase
    exact ⟨hname.symm, f, hf, _, hvariable.trans hname.symm⟩
  · obtain ⟨renameable, rfl⟩ := hq'
    cases hbase

theorem leadingSegment_of_isName (h : isName name = true) : leadingSegment name = name := by
  have hsegments := segments_eq_cons name
  rw [Fragment.segments_of_isName h] at hsegments
  exact (List.cons.inj hsegments).1.symm

/-- Under loops with variables that are identifiers, a name suits what it refers to. -/
theorem Settled.suits (h : Settled k fs name q) (hname : IsPath name)
    (hfs : ∀ f ∈ fs, ∀ role, isVariable (f.variable role).name = true ∧ (f.variable role).name ≠ object) :
    q.Suits object name := by
  refine ⟨hname, fun base hbase => (h.eq_base hbase).1, fun base hbase => ?_⟩
  obtain ⟨-, f, hf, role, rfl⟩ := h.eq_base hbase
  exact hfs f hf role

/-! ### Templates -/

/-- Everything in a template of an extraction is sound, if its names are identifiers. -/
theorem sound_of_within (hread : Markup.read id site.source = .ok document)
    (h : site.Extracts document d) (hd : d.Named object) (ht : t ∈ d.templates)
    (hu : Within t.usages fs u) : Fragment.Sound object u := by
  have hnamed := hd.usages t ht fs u hu
  have hfs : ∀ f ∈ fs, ∀ role, isVariable (f.variable role).name = true ∧
      (f.variable role).name ≠ object := fun f hf => by
    obtain ⟨gs, span, items, depth, children, hloop⟩ := hu.exists_loop hf
    exact hd.usages t ht gs _ hloop
  have hcomponent {path : String} {renameable : Bool} (hpath : IsPath path) :
      (Qualifier.component renameable).Suits object path :=
    ⟨hpath, by simp [Qualifier.Fits, Qualifier.base?], by simp [Qualifier.Plain, Qualifier.base?]⟩
  cases Site.origin_of_within h ht hu with
  | path hp hq => exact ⟨(hp.occurs.stands hread).isShort, hq.suits hnamed hfs⟩
  | observed hp hf hq => exact ⟨(hp.occurs.stands hread).isShort, hq.suits hnamed hfs⟩
  | @variableName p role f hp hf hbound =>
    obtain ⟨hvariable, hne⟩ := hfs f (List.mem_of_getLast? hf) role
    rw [hbound] at hvariable hne
    have hleading := leadingSegment_of_isName (Fragment.isName_of_isVariable hvariable)
    refine ⟨(hp.occurs.stands hread).isShort, hnamed, fun base hbase => ?_, fun base hbase => ?_⟩
    · obtain rfl := Option.some.inj hbase
      exact hleading
    · obtain rfl := Option.some.inj hbase
      exact ⟨hvariable, hne⟩
  | callbackName hp hattr => exact ⟨(hp.occurs.stands hread).isShort, hcomponent hnamed⟩
  | call hp hq => exact ⟨(hp.occurs.stands hread).isShort, hq.suits hnamed hfs⟩
  | literal => exact hnamed
  | loop he => exact ⟨(hnamed .item).1, (hnamed .index).1⟩
  | attributeName he ha hname => exact ⟨Span.isShort_ofOffsets .., hnamed⟩
  | listener hp hq => exact ⟨(hp.occurs.stands hread).isShort, hq.suits hnamed hfs⟩
  | dataFlow hv => exact hnamed
  | callback hp => trivial

theorem templateSound_of_extracts (hread : Markup.read id site.source = .ok document)
    (h : site.Extracts document d) (hd : d.Named object) (ht : t ∈ d.templates) :
    TemplateSound object t := by
  obtain ⟨scope, content, found, -, -, hwalked, husages⟩ := Site.walked_of_extracts h ht
  refine ⟨hd.typeName t ht, ?_, fun fs u hu => sound_of_within hread h hd ht hu⟩
  rw [husages]
  exact hwalked.linked

end Relabel
