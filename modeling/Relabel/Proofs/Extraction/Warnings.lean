import Relabel.Proofs.Extraction.Fallback
import Relabel.Proofs.Extraction.Scoping

/-!
# One warning for each problem

A template warns about what it mentions and nobody knows, and takes such a name for a part of the component
that may be renamed (`warnings_of_template`). Which mentions a loop has is a matter of reading: if its
attributes repeat a name, or give a literal for a callback, the walk finds a list missing that is there,
or the name of a method in a binding. In all other templates it finds what is written
(`mentions_lastReading_eq`).
-/

namespace Relabel
open Text
open Markup (Node Head Attribute preorderOf)
variable {site : Site} {scope : Scope} {head : Head} {a : Attribute} {ns content : List Node} {u : Usage}
  {fs : List Frame} {owner : String} {t : TemplateUsages} {warnings : List Warning}

/-! ### Plain loops -/

/-- No two attributes of a loop have one of the names that count, and a callback that is bound is bound to
an expression. -/
structure PlainLoop (head : Head) : Prop where
  unique : ∀ a ∈ head.attributes, ∀ b ∈ head.attributes, Site.bindingKey a = Site.bindingKey b →
    Site.bindingKey a ∈ ["items", "sort", "filter"] → a = b
  used : ∀ a ∈ head.attributes, Site.bindingKey a ∈ ["sort", "filter"] → a.bindings ≠ [] →
    ∃ b ∈ a.bindings, b.isUsed = true

namespace Site

/-- In a plain loop the last attribute with a key is any attribute with it. -/
theorem lastBinding?_of_plain (h : PlainLoop head) {key : String} (hkey : key ∈ ["items", "sort", "filter"])
    (ha : a ∈ head.attributes) (hname : bindingKey a = key) :
    lastBinding? head key = a.bindings.find? Binding.isUsed := by
  unfold lastBinding?
  cases hlast : head.attributes.reverse.find? fun a => bindingKey a == key with
  | none =>
    have hnot := List.find?_eq_none.1 hlast a (List.mem_reverse.2 ha)
    exact absurd (beq_iff_eq.2 hname) hnot
  | some b =>
    have hb : bindingKey b = key := by simpa using List.find?_some hlast
    have hmem := List.mem_reverse.1 (List.mem_of_find?_eq_some hlast)
    rw [h.unique a ha b hmem (hname.trans hb.symm) (hname ▸ hkey)]
    rfl

theorem hasList_of_plain (h : PlainLoop head) : lastReading.hasList head = plainReading.hasList head := by
  rw [Bool.eq_iff_iff]
  simp only [lastReading, plainReading, List.any_eq_true, Bool.and_eq_true, beq_iff_eq]
  constructor
  · intro hlast
    obtain ⟨b, hlast⟩ := Option.isSome_iff_exists.1 hlast
    obtain ⟨a, hfind, hb⟩ := Option.bind_eq_some_iff.1 hlast
    refine ⟨a, List.mem_reverse.1 (List.mem_of_find?_eq_some hfind), by simpa using List.find?_some hfind, ?_⟩
    exact ⟨b, List.mem_of_find?_eq_some hb, List.find?_some hb⟩
  · rintro ⟨a, ha, hname, b, hb, hused⟩
    rw [lastBinding?_of_plain h (by simp) ha hname, List.find?_isSome]
    exact ⟨b, hb, hused⟩

theorem callback?_of_plain (h : PlainLoop head) {attr : String} (hattr : attr ∈ ["sort", "filter"]) :
    lastReading.callback? head attr = plainReading.callback? head attr := by
  simp only [lastReading, plainReading]
  cases hfirst : head.attribute? attr with
  | none => simp [bareName?, hfirst]
  | some a =>
    have ha := List.mem_of_find?_eq_some hfirst
    have hname : bindingKey a = attr := by
      refine bindingKey_of_attribute? hfirst ?_
      simp only [List.mem_cons, List.not_mem_nil, or_false] at hattr
      rcases hattr with rfl | rfl
      · exact ⟨by decide, by decide⟩
      · exact ⟨by decide, by decide⟩
    rw [lastBinding?_of_plain h (List.mem_cons_of_mem _ hattr) ha hname, Option.any_some]
    refine if_congr ?_ rfl rfl
    rw [List.find?_isSome, Bool.not_eq_true', List.isEmpty_eq_false_iff]
    constructor
    · rintro ⟨b, hb, -⟩
      exact List.ne_nil_of_mem hb
    · exact h.used a ha (hname ▸ hattr)

mutual

theorem mem_placesIn {p : Scope × Node} : ∀ {n : Node} {scope : Scope},
    p ∈ site.placesIn scope n → p.2 ∈ n.preorder
  | .comment _, scope, h => by
    obtain rfl := List.mem_singleton.1 h
    exact List.mem_singleton_self _
  | .text _, scope, h => by
    obtain rfl := List.mem_singleton.1 h
    exact List.mem_singleton_self _
  | .element head children, scope, h => by
    rw [placesIn] at h
    rcases List.mem_cons.1 h with rfl | h
    · exact Node.mem_preorder_self _
    · refine List.mem_cons_of_mem _ ?_
      split at h
      · cases h
      · split at h
        · split at h
          · exact mem_places h
          · cases h
        · exact mem_places h

theorem mem_places {p : Scope × Node} : ∀ {ns : List Node} {scope : Scope},
    p ∈ site.places scope ns → p.2 ∈ preorderOf ns
  | [], scope, h => by cases h
  | n :: ns, scope, h => by
    rw [places] at h
    rcases List.mem_append.1 h with h | h
    · exact List.mem_append_left _ (mem_placesIn h)
    · exact List.mem_append_right _ (mem_places h)

end

/-- In a template of plain loops the walk finds what is written. -/
theorem mentions_lastReading_eq (h : ∀ head children, .element head children ∈ preorderOf ns →
    head.isRepeat = true → PlainLoop head) (site : Site) (scope : Scope) :
    site.mentions lastReading scope ns = site.mentions plainReading scope ns := by
  refine List.flatMap_congr fun p hp => ?_
  have hmem := mem_places hp
  obtain ⟨s, n⟩ := p
  cases n with
  | comment span => rfl
  | text v => rfl
  | element head children =>
    cases hrepeat : head.isRepeat with
    | false => simp only [placeMentions, hrepeat, Bool.false_eq_true, if_false]
    | true =>
      have hplain := h head children hmem hrepeat
      have hsort : lastReading.callback? head "sort" = plainReading.callback? head "sort" :=
        callback?_of_plain hplain (by simp)
      have hfilter : lastReading.callback? head "filter" = plainReading.callback? head "filter" :=
        callback?_of_plain hplain (by simp)
      simp only [placeMentions, loopMentions, hasList_of_plain hplain, List.flatMap_cons, List.flatMap_nil,
        hsort, hfilter]

end Site

/-! ### Templates -/

/-- What a usage asks for, with what it is taken for. -/
def Usage.asks? : Usage → Option (Mention × Qualifier)
  | .path _ p q _ => some (.path p, q)
  | .call _ name q _ => some (.call name, q)
  | .listener _ name q => some (.call name, q)
  | _ => none

/-- A name that nobody knows is taken for a part of the component, and falls back. -/
theorem eq_component_of_origin {m : Mention} {q : Qualifier} (horigin : Usage.Origin content 0 fs u)
    (hfallback : u.FallsBack (site.scopeOf t fs)) (hasks : u.asks? = some (m, q))
    (hunknown : m.isKnown site (site.scopeOf t fs) = false) :
    q = .component true ∨ u.Introduces content fs := by
  have hcomponent {name : String} {q : Qualifier} (hq : Settled 0 fs name q)
      (hvariable : (site.scopeOf t fs).hasVariable name = false) : ∃ renameable, q = .component renameable := by
    refine hq.resolves.component fun f hf hknows => ?_
    rw [Scope.hasVariable_eq_false_iff, Scope.innermost?_eq_none_iff] at hvariable
    exact hvariable f (List.mem_reverse.2 hf) hknows
  have hpath {name : String} {q : Qualifier} (hq : Settled 0 fs name q)
      (hfallback : (Usage.path default name q .expression).FallsBack (site.scopeOf t fs))
      (hunknown : (Mention.path name).isKnown site (site.scopeOf t fs) = false) : q = .component true := by
    simp only [Mention.isKnown, Bool.or_eq_false_iff] at hunknown
    obtain ⟨renameable, rfl⟩ := hcomponent hq hunknown.1.1
    rw [hfallback hunknown.1.2 hunknown.2 renameable rfl]
  have hmethod {name : String} {q : Qualifier} (hq : Settled 0 fs name q)
      (hfallback : (Usage.listener default name q).FallsBack (site.scopeOf t fs))
      (hunknown : (Mention.call name).isKnown site (site.scopeOf t fs) = false) : q = .component true := by
    simp only [Mention.isKnown, Bool.or_eq_false_iff] at hunknown
    obtain ⟨renameable, rfl⟩ := hcomponent hq hunknown.1
    rw [hfallback hunknown.2 renameable rfl]
  cases horigin with
  | path hp hq =>
    obtain ⟨rfl, rfl⟩ := Prod.mk.inj (Option.some.inj hasks)
    exact .inl (hpath hq hfallback hunknown)
  | observed hp hf hq =>
    obtain ⟨rfl, rfl⟩ := Prod.mk.inj (Option.some.inj hasks)
    exact .inl (hpath hq hfallback hunknown)
  | @variableName p role f hp hf hbound => exact .inr ⟨role, f, p, hp, hf, hbound, rfl⟩
  | callbackName hp hattr =>
    obtain ⟨rfl, rfl⟩ := Prod.mk.inj (Option.some.inj hasks)
    simp only [Mention.isKnown, Bool.or_eq_false_iff] at hunknown
    rw [hfallback hunknown.1.2 hunknown.2 _ rfl]
    exact .inl rfl
  | call hp hq =>
    obtain ⟨rfl, rfl⟩ := Prod.mk.inj (Option.some.inj hasks)
    exact .inl (hmethod hq hfallback hunknown)
  | listener hp hq =>
    obtain ⟨rfl, rfl⟩ := Prod.mk.inj (Option.some.inj hasks)
    exact .inl (hmethod hq hfallback hunknown)
  | literal => cases hasks
  | loop => cases hasks
  | attributeName => cases hasks
  | dataFlow => cases hasks
  | callback => cases hasks

/-- A template warns once for each mention that nobody knows, in the order of the walk. If its loops are
plain, the mentions are those that are written. What is found for a name that nobody knows is a part of
the component that may be renamed, or the name of a variable where its loop introduces it. -/
theorem warnings_of_template (h : site.template owner content = .ok (t, warnings)) :
    warnings = site.problems (site.mentions Site.lastReading (site.scopeOf t []) content) ∧
      ((∀ head children, .element head children ∈ preorderOf content → head.isRepeat = true → PlainLoop head) →
        warnings = site.problems (site.mentions Site.plainReading (site.scopeOf t []) content)) ∧
      ∀ fs u m q, Within t.usages fs u → u.asks? = some (m, q) → m.isKnown site (site.scopeOf t fs) = false →
        q = .component true ∨ u.Introduces content fs := by
  unfold Site.template at h
  split at h
  · next typeName _ =>
    cases hwalk : site.walk { owner, schema := site.schemas.get? owner } content with
    | error e => rw [hwalk] at h; cases h
    | ok found =>
      rw [hwalk] at h
      cases h
      have hwarnings := Site.warnings_of_walk hwalk
      have hwalked := Site.walked_of_walk hwalk
      refine ⟨hwarnings, fun hplain => ?_, fun fs u m q hu hasks hunknown => ?_⟩
      · exact hwarnings.trans (congrArg site.problems (Site.mentions_lastReading_eq hplain site _))
      · have horigin := Usage.holds_of_within (hwalked.comesFrom (List.Subset.refl _)) hu
        have hfallback : u.FallsBack (site.scopeOf ⟨owner, typeName, found.usages⟩ fs) :=
          Usage.holds_of_within (fun u hu => hwalked.allFallBack u hu []) hu
        exact eq_component_of_origin horigin hfallback hasks hunknown
  · cases h

/-- A list that is sorted by a literal, and a path that nobody knows. -/
def sortedSite : Site :=
  { listSite with source := "<template><dom-repeat items=\"[[xs]]\" sort=\"[['x']]\">[[ys]]</dom-repeat></template>" }

def sortedContent : List Node :=
  [.element ⟨"dom-repeat", [⟨⟨"items", ⟨22, 27⟩⟩, some ⟨"[[xs]]", ⟨29, 35⟩⟩⟩,
      ⟨⟨"sort", ⟨37, 41⟩⟩, some ⟨"[['x']]", ⟨43, 50⟩⟩⟩], ⟨10, 71⟩, ⟨10, 52⟩⟩
    [.text ⟨"[[ys]]", ⟨52, 58⟩⟩]]

/-- There the literal is taken for the name of a method. -/
theorem warnings_of_template_sorted :
    ∃ t warnings, sortedSite.template "x-a" sortedContent = .ok (t, warnings) ∧ warnings.length = 2 ∧
      warnings = sortedSite.problems (sortedSite.mentions Site.lastReading (sortedSite.scopeOf t []) sortedContent) ∧
      (sortedSite.problems (sortedSite.mentions Site.plainReading (sortedSite.scopeOf t []) sortedContent)).length = 1 := by
  have hlength : ((sortedSite.template "x-a" sortedContent).toOption.map fun r => (r.2.length,
      (sortedSite.problems (sortedSite.mentions Site.plainReading (sortedSite.scopeOf r.1 []) sortedContent)).length)) =
        some (2, 1) := by
    decide +kernel
  cases h : sortedSite.template "x-a" sortedContent with
  | error e => rw [h] at hlength; cases hlength
  | ok r =>
    obtain ⟨t, warnings⟩ := r
    rw [h] at hlength
    obtain ⟨hwarnings, hplain⟩ := Prod.mk.inj (Option.some.inj hlength)
    exact ⟨t, warnings, rfl, hwarnings, (warnings_of_template h).1, hplain⟩

end Relabel
