import Relabel.Proofs.Extraction.Walk

/-!
# Names in a template refer to what their scope says

A reference of an extracted template refers to the variable of the innermost loop around it that knows
the first part of its name, and to a property of the component if no loop does. Two kinds of nodes are
no references of this sort: the name of a variable where its loop introduces it, and the bare name of a
method that sorts or filters.
-/

namespace Relabel
open Markup (Node Document NamedBy)
variable {site : Site} {document : Document} {d : DocumentUsages} {t : TemplateUsages}
  {fs : List Frame} {u : Usage} {name : String} {q : Qualifier}

/-- A usage is the name of a variable where the innermost loop introduces it. -/
def Usage.Introduces (ns : List Node) (fs : List Frame) (u : Usage) : Prop :=
  ∃ role f p, NamedBy ns role.attribute p ∧ fs.getLast? = some f ∧
    f.variable role = ⟨p.text, false, true⟩ ∧
    u = .path p.span p.text (.loop role ⟨p.text, false, true⟩ fs.length) .expression

/-- A usage is the bare name of a method that sorts or filters. -/
def Usage.NamesCallback (ns : List Node) (u : Usage) : Prop :=
  ∃ attr ∈ ["sort", "filter"], ∃ p renameable, NamedBy ns attr p ∧
    u = .path p.span p.text (.component renameable) .expression

/-- No item without a name of its own stays a variable. -/
theorem Settled.isDefault_eq_false {bound : LoopVariable} {depth : Nat}
    (h : Settled 0 fs name (.loop .item bound depth)) : bound.isDefault = false := by
  obtain ⟨q', hq', h⟩ := h
  match q', hq', h with
  | .loop .item bound' depth', hq', h =>
    obtain ⟨outer, f, inner, -, -, rfl⟩ := hq'.exists_loop
    rw [Qualifier.settle] at h
    split at h
    · cases h
    · next hnot =>
      cases h
      exact Bool.eq_false_iff.2 fun hdefault => hnot ⟨hdefault, Nat.succ_pos _⟩

/-- References of an extracted template, those among the arguments of calls and the lists of loops too,
refer to what their names stand for under the loops around them. -/
theorem resolves_of_extracts (h : site.Extracts document d) (ht : t ∈ d.templates)
    (hu : Within t.usages fs u) (hq : u.reference? = some (name, q)) :
    (u.Introduces document.children fs ∨ u.NamesCallback document.children ∨ Resolves fs name q) ∧
      ∀ bound depth, q = .loop .item bound depth → bound.isDefault = false := by
  have hsettled {name' : String} {q' : Qualifier} (hq : some (name', q') = some (name, q))
      (h : Settled 0 fs name' q') :
      (u.Introduces document.children fs ∨ u.NamesCallback document.children ∨ Resolves fs name q) ∧
        ∀ bound depth, q = .loop .item bound depth → bound.isDefault = false := by
    obtain ⟨rfl, rfl⟩ := Prod.mk.inj (Option.some.inj hq)
    exact ⟨.inr (.inr h.resolves), fun bound depth hq => Settled.isDefault_eq_false (hq ▸ h)⟩
  cases Site.origin_of_within h ht hu with
  | path hp h => exact hsettled hq h
  | observed hp hf h => exact hsettled hq h
  | @variableName p role f hp hf hbound =>
    obtain ⟨rfl, rfl⟩ := Prod.mk.inj (Option.some.inj hq)
    refine ⟨.inl ⟨role, f, p, hp, hf, hbound, rfl⟩, fun bound depth hq => ?_⟩
    cases hq
    rfl
  | @callbackName p attr renameable hp hattr =>
    obtain ⟨rfl, rfl⟩ := Prod.mk.inj (Option.some.inj hq)
    exact ⟨.inr (.inl ⟨attr, hattr, p, renameable, hp, rfl⟩), fun bound depth hq => nomatch hq⟩
  | call hp h => exact hsettled hq h
  | listener hp h => exact hsettled hq h
  | literal => cases hq
  | loop => cases hq
  | attributeName => cases hq
  | dataFlow => cases hq
  | callback => cases hq

/-- A template with a list that does not name its item. -/
def listSite : Site where
  document := "d"
  source := "<template><dom-repeat items=\"[[xs]]\">[[item.a]]</dom-repeat></template>"
  schemas := ⟨[{
    tag := "x-a"
    typeName := some "XA"
    properties := [("xs", { renameable := true })] }], []⟩
  options := {}

/-- The tree of that template. -/
def listDocument : Document :=
  ⟨"d", [.element ⟨"template", [], ⟨0, 71⟩, ⟨0, 10⟩⟩
    [.element ⟨"dom-repeat", [⟨⟨"items", ⟨22, 27⟩⟩, some ⟨"[[xs]]", ⟨29, 35⟩⟩⟩], ⟨10, 60⟩, ⟨10, 37⟩⟩
      [.text ⟨"[[item.a]]", ⟨37, 47⟩⟩]]]⟩

/-- The variables of the list. -/
def listFrame : Frame :=
  ⟨⟨"item", true, false⟩, ⟨"index", true, false⟩⟩

theorem exists_extracts_list :
    ∃ d t u, listSite.Extracts listDocument d ∧ t ∈ d.templates ∧ Within t.usages [listFrame] u ∧
      u.reference? = some ("item.a", .item "item") := by
  have h : ([listFrame], "item.a", Qualifier.item "item") ∈
      ((listSite.extractRoot listDocument "x-a").toOption.map fun d =>
        d.templates.flatMap (Usage.lookupsOf ·.usages)).getD [] := by
    decide +kernel
  cases hextract : listSite.extractRoot listDocument "x-a" with
  | error e =>
    rw [hextract] at h
    cases h
  | ok d =>
    rw [hextract] at h
    obtain ⟨t, ht, hr⟩ := List.mem_flatMap.1 h
    obtain ⟨u, hu, hreference⟩ := Usage.exists_of_mem_lookupsOf hr
    exact ⟨d, t, u, .inr ⟨"x-a", hextract⟩, ht, hu, hreference⟩

/-- A path of an item without a name of its own. -/
theorem resolves_of_extracts_item :
    ∃ d t u, listSite.Extracts listDocument d ∧ t ∈ d.templates ∧ Within t.usages [listFrame] u ∧
      u.reference? = some ("item.a", .item "item") ∧ Resolves [listFrame] "item.a" (.item "item") := by
  obtain ⟨d, t, u, h, ht, hu, hq⟩ := exists_extracts_list
  refine ⟨d, t, u, h, ht, hu, hq, ?_⟩
  rcases (resolves_of_extracts h ht hu hq).1 with ⟨role, f, p, -, -, -, rfl⟩ | hnamed | hresolves
  · cases (Prod.mk.inj (Option.some.inj hq)).2
  · obtain ⟨attr, -, p, renameable, -, rfl⟩ := hnamed
    cases (Prod.mk.inj (Option.some.inj hq)).2
  · exact hresolves

end Relabel
