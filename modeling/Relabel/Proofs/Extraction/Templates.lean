import Relabel.Extraction
import Relabel.Proofs.Markup.Accounts
import Relabel.Proofs.Markup.Printing

/-!
# Templates of a document that was read

Every attribute of such a document stands where its spans say, so a walk over it always finds
something (`walk_isOk`), and extraction fails only on a component without id or without type.
-/

namespace Relabel

/-- Whether a failure says that an attribute is not where its spans say. -/
def Failure.isMalformedLocation : Failure → Bool
  | malformedLocation .. => true
  | _ => false

namespace Site
open Markup
variable {site : Site} {scope : Scope} {document : Document} {nodes content : List Node}
  {head : Head} {children : List Node} {id source owner : String} {failure : Failure}
  {d : DocumentUsages} {t : TemplateUsages} {warnings : List Warning}

/-- The usages of a document, taken as one of component definitions or as the template of an owner. -/
def Extracts (site : Site) (document : Document) (d : DocumentUsages) : Prop :=
  site.extract document = .ok d ∨ ∃ owner, site.extractRoot document owner = .ok d

/-! ### Contents of templates -/

section
variable {ε α β : Type} {f : α → Except ε (Option β)} {as : List α}

theorem exists_of_filterMapM_eq_error {e : ε} (h : as.filterMapM f = .error e) :
    ∃ a ∈ as, f a = .error e := by
  induction as with
  | nil => cases h
  | cons a as ih =>
    rw [List.filterMapM_cons] at h
    cases ha : f a with
    | error e' =>
      rw [ha] at h
      injection h with h
      exact ⟨a, List.mem_cons_self .., ha.trans (by rw [h])⟩
    | ok b =>
      rw [ha] at h
      have hrest : as.filterMapM f = .error e := by
        cases hrest : as.filterMapM f with
        | error e' =>
          rw [hrest] at h
          cases b <;> exact h
        | ok bs =>
          rw [hrest] at h
          cases b <;> cases h
      obtain ⟨a', ha', hf⟩ := ih hrest
      exact ⟨a', List.mem_cons_of_mem _ ha', hf⟩

theorem exists_of_mem_filterMapM {bs : List β} {b : β} (h : as.filterMapM f = .ok bs) (hb : b ∈ bs) :
    ∃ a ∈ as, f a = .ok (some b) := by
  induction as generalizing bs with
  | nil =>
    obtain rfl := Except.ok.inj h
    cases hb
  | cons a as ih =>
    rw [List.filterMapM_cons] at h
    cases ha : f a with
    | error e => rw [ha] at h; cases h
    | ok c =>
      rw [ha] at h
      cases hrest : as.filterMapM f with
      | error e => rw [hrest] at h; cases c <;> cases h
      | ok cs =>
        rw [hrest] at h
        have hstep : b ∈ cs → ∃ a' ∈ a :: as, f a' = .ok (some b) := fun hb =>
          (ih hrest hb).imp fun a' h' => ⟨List.mem_cons_of_mem _ h'.1, h'.2⟩
        cases c with
        | none =>
          obtain rfl := Except.ok.inj h
          exact hstep hb
        | some c =>
          obtain rfl := Except.ok.inj h
          rcases List.mem_cons.1 hb with rfl | hb
          · exact ⟨a, List.mem_cons_self .., ha⟩
          · exact hstep hb

end

/-- A template holds nodes of the nodes among which it is looked for. -/
theorem preorderOf_sublist_of_templateIn? (h : templateIn? nodes = some content) :
    (preorderOf content).Sublist (preorderOf nodes) := by
  obtain ⟨⟨head, children⟩, hfind, rfl⟩ := Option.map_eq_some_iff.1 h
  obtain ⟨n, hn, hfound⟩ := List.mem_filterMap.1 (List.mem_of_find?_eq_some hfind)
  cases n with
  | comment span => cases hfound
  | text piece => cases hfound
  | element head' children' =>
    obtain ⟨rfl, rfl⟩ := Prod.mk.inj (Option.some.inj hfound)
    exact preorderOf_sublist (mem_preorderOf.2 ⟨_, hn, Node.mem_preorder_self _⟩)

theorem preorderOf_sublist_of_mem_find {element : Element} {tag : String}
    (h : element ∈ document.find tag) : (preorderOf element.2).Sublist (preorderOf document.children) :=
  preorderOf_sublist (mem_elementsOf (List.mem_filter.1 h).1)

/-- What a component definition gives is the template of its content. -/
theorem module_eq {element : Element} {r : Except Failure (Option (TemplateUsages × List Warning))}
    (h : site.module element = r) :
    (∃ place, r = .error (.missingModuleId site.document place)) ∨ r = .ok none ∨
      ∃ owner content, (preorderOf content).Sublist (preorderOf element.2) ∧
        r = (site.template owner content).map some := by
  subst h
  obtain ⟨head, children⟩ := element
  simp only [module]
  split
  · exact .inl ⟨_, rfl⟩
  · next owner _ =>
    split
    · split
      · exact .inr (.inl rfl)
      · next content hcontent =>
        exact .inr (.inr ⟨owner, content, preorderOf_sublist_of_templateIn? hcontent, rfl⟩)
    · exact .inr (.inl rfl)

/-- Every template of an extraction was extracted from nodes of the document. -/
theorem template_of_extracts (h : site.Extracts document d) (ht : t ∈ d.templates) :
    ∃ owner content warnings, (preorderOf content).Sublist (preorderOf document.children) ∧
      site.template owner content = .ok (t, warnings) := by
  rcases h with h | ⟨owner, h⟩
  · rw [extract] at h
    cases hfound : (document.find "dom-module").filterMapM site.module with
    | error e => rw [hfound] at h; cases h
    | ok found =>
      rw [hfound] at h
      obtain rfl := Except.ok.inj h
      obtain ⟨⟨t, warnings⟩, hmem, rfl⟩ := List.mem_map.1 ht
      obtain ⟨element, helement, hmodule⟩ := exists_of_mem_filterMapM hfound hmem
      rcases module_eq hmodule with ⟨place, h⟩ | h | ⟨owner, content, hsublist, h⟩
      · cases h
      · cases h
      · refine ⟨owner, content, warnings, hsublist.trans (preorderOf_sublist_of_mem_find helement), ?_⟩
        cases htemplate : site.template owner content with
        | error e => rw [htemplate] at h; cases h
        | ok r =>
          rw [htemplate] at h
          rw [← Option.some.inj (Except.ok.inj h)]
  · rw [extractRoot] at h
    split at h
    · obtain rfl := Except.ok.inj h
      cases ht
    · next content hcontent =>
      cases htemplate : site.template owner content with
      | error e => rw [htemplate] at h; cases h
      | ok r =>
        rw [htemplate] at h
        obtain rfl := Except.ok.inj h
        obtain rfl := List.mem_singleton.1 ht
        exact ⟨owner, content, r.2, preorderOf_sublist_of_templateIn? hcontent, htemplate⟩

/-! ### Locations of attributes -/

/-- Every attribute of some nodes, and of the nodes inside them, stands where its spans say. -/
def Located (site : Site) (nodes : List Node) : Prop :=
  ∀ head children, .element head children ∈ preorderOf nodes →
    ∀ a ∈ head.attributes, a.standsIn site.source.toList = true

theorem checkLocation_eq_ok {a : Attribute} {document tag : String}
    (h : a.standsIn source.toList = true) : checkLocation document source tag a = .ok () := by
  rw [checkLocation, if_pos h]

theorem attributesOf_eq_ok (h : ∀ a ∈ head.attributes, a.standsIn site.source.toList = true) :
    site.attributesOf scope head =
      .ok (head.attributes.map fun a => (a, site.allAttributeUsages scope head a)) := by
  unfold attributesOf
  generalize head.attributes = as at h
  induction as with
  | nil => rfl
  | cons a as ih =>
    rw [List.mapM_cons, ih fun b hb => h b (List.mem_cons_of_mem _ hb),
      checkLocation_eq_ok (h a (List.mem_cons_self ..))]
    rfl

mutual

theorem walkNode_isOk (scope : Scope) : ∀ {n : Node}, site.Located [n] →
    ∃ found, site.walkNode scope n = .ok found
  | .comment _, _ => ⟨_, rfl⟩
  | .text _, _ => ⟨_, rfl⟩
  | .element head children, h => by
    have hattributes : site.attributesOf scope head = _ := attributesOf_eq_ok
      (h head children (by simp [preorderOf, Node.preorder]))
    have hchildren : site.Located children := fun head' children' hc =>
      h head' children' (by simp [preorderOf, Node.preorder, hc])
    rw [walkNode, hattributes]
    simp only [bind, Except.bind, pure, Except.pure]
    split
    · split
      · exact ⟨_, rfl⟩
      · next opening _ =>
        split
        · exact ⟨_, rfl⟩
        · obtain ⟨content, hcontent⟩ := walk_isOk (scope.enter opening.frame) hchildren
          rw [hcontent]
          exact ⟨_, rfl⟩
    · split
      · exact ⟨_, rfl⟩
      · obtain ⟨content, hcontent⟩ := walk_isOk scope hchildren
        rw [hcontent]
        exact ⟨_, rfl⟩

/-- A walk over located nodes finds something. -/
theorem walk_isOk (scope : Scope) : ∀ {nodes : List Node}, site.Located nodes →
    ∃ found, site.walk scope nodes = .ok found
  | [], _ => ⟨_, rfl⟩
  | n :: nodes, h => by
    have hn : site.Located [n] := fun head children hc =>
      h head children (List.mem_append_left _ (preorderOf_singleton n ▸ hc))
    have hnodes : site.Located nodes := fun head children hc =>
      h head children (List.mem_append_right _ hc)
    obtain ⟨first, hfirst⟩ := walkNode_isOk scope hn
    obtain ⟨rest, hrest⟩ := walk_isOk scope hnodes
    rw [walk, hfirst, hrest]
    exact ⟨_, rfl⟩

end

theorem template_eq_error (hlocated : site.Located content)
    (h : site.template owner content = .error failure) : failure = .unknownType owner := by
  obtain ⟨found, hfound⟩ := walk_isOk { owner, schema := site.schemas.get? owner } hlocated
  unfold template at h
  split at h
  · rw [hfound] at h
    cases h
  · injection h with h
    exact h.symm

theorem isMalformedLocation_of_extract (hlocated : site.Located document.children)
    (h : site.extract document = .error failure) : failure.isMalformedLocation = false := by
  have herror : (document.find "dom-module").filterMapM site.module = .error failure := by
    rw [extract] at h
    cases hfound : (document.find "dom-module").filterMapM site.module with
    | error e => rw [hfound] at h; injection h with h; rw [h]
    | ok found => rw [hfound] at h; cases h
  obtain ⟨element, helement, hmodule⟩ := exists_of_filterMapM_eq_error herror
  rcases module_eq hmodule with ⟨place, h⟩ | h | ⟨owner, content, hsublist, h⟩
  · injection h with h
    rw [h]
    rfl
  · cases h
  · cases htemplate : site.template owner content with
    | error e =>
      have hcontent : site.Located content := fun head children hc =>
        hlocated head children ((preorderOf_sublist_of_mem_find helement).subset (hsublist.subset hc))
      rw [htemplate] at h
      injection h with h
      rw [h, template_eq_error hcontent htemplate]
      rfl
    | ok r => rw [htemplate] at h; cases h

theorem isMalformedLocation_of_extractRoot (hlocated : site.Located document.children)
    (h : site.extractRoot document owner = .error failure) : failure.isMalformedLocation = false := by
  rw [extractRoot] at h
  split at h
  · cases h
  · next content hcontent =>
    cases htemplate : site.template owner content with
    | error e =>
      have hlocated : site.Located content := fun head children hc =>
        hlocated head children ((preorderOf_sublist_of_templateIn? hcontent).subset hc)
      rw [htemplate] at h
      injection h with h
      rw [← h, template_eq_error hlocated htemplate]
      rfl
    | ok r => rw [htemplate] at h; cases h

end Site

namespace Markup
open Text
variable {id source : String} {document : Document}

/-- The tree of a document that is read accounts for every byte of it, as long as these have words of
their own. So every attribute passes the location check, and extraction never fails because of a
location. -/
theorem accounts_of_read (hfit : size source.toList < UInt32.size) (h : read id source = .ok document) :
    Accounts source.toList document.children ∧
      (∀ head children, .element head children ∈ preorderOf document.children →
        ∀ a ∈ head.attributes, ∀ name, checkLocation name source head.tag a = .ok ()) ∧
      (∀ site : Site, site.source = source → ∀ failure : Failure,
        (site.extract document = .error failure → failure.isMalformedLocation = false) ∧
        ∀ owner, (site.extractRoot document owner = .error failure →
            failure.isMalformedLocation = false) ∧
          ∀ head children, .element head children ∈ preorderOf document.children →
            site.template owner children = .error failure → failure.isMalformedLocation = false) := by
  obtain ⟨ts, hcuts, hchildren⟩ := ofTokens_of_read h
  have haccounts := accounts_of_cuts hfit hcuts hchildren (stands_of_read h)
  have hlocated : ∀ site : Site, site.source = source → site.Located document.children := by
    rintro site rfl head children he a ha
    exact (haccounts.names head children he a ha).1
  refine ⟨haccounts, fun head children he a ha name => ?_, fun site hsite failure =>
    ⟨?_, fun owner => ⟨?_, fun head children he herror => ?_⟩⟩⟩
  · exact Site.checkLocation_eq_ok (haccounts.names head children he a ha).1
  · exact Site.isMalformedLocation_of_extract (hlocated site hsite)
  · exact Site.isMalformedLocation_of_extractRoot (hlocated site hsite)
  · have hcontent : site.Located children := fun head' children' hc =>
      hlocated site hsite head' children' (mem_preorderOf_of_child he hc)
    rw [Site.template_eq_error hcontent herror]
    rfl

/-- An element that is closed by the end tag of the element around it. -/
theorem accounts_of_read_unclosed :
    size "<ul><li a=\"x\">é</ul>".toList < UInt32.size ∧
      read "d" "<ul><li a=\"x\">é</ul>" =
        .ok ⟨"d", [.element ⟨"ul", [], ⟨0, 21⟩, ⟨0, 4⟩⟩
          [.element ⟨"li", [⟨⟨"a", ⟨8, 9⟩⟩, some ⟨"x", ⟨11, 12⟩⟩⟩], ⟨4, 16⟩, ⟨4, 14⟩⟩
            [.text ⟨"é", ⟨14, 16⟩⟩]]]⟩ ∧
      Accounts "<ul><li a=\"x\">é</ul>".toList
        [.element ⟨"ul", [], ⟨0, 21⟩, ⟨0, 4⟩⟩
          [.element ⟨"li", [⟨⟨"a", ⟨8, 9⟩⟩, some ⟨"x", ⟨11, 12⟩⟩⟩], ⟨4, 16⟩, ⟨4, 14⟩⟩
            [.text ⟨"é", ⟨14, 16⟩⟩]]] := by
  have hul : Sketch.IsTag "ul" := by decide
  have hli : Sketch.IsTag "li" := by decide
  have ha : ∀ a ∈ [("a", some "x")], Sketch.AttributeOk a := by
    rw [List.forall_mem_singleton]
    decide
  have hend : ∀ n, tokens n [] = .ok [] := fun n => by rw [tokens]
  have hnone : ∀ a ∈ ([] : List (String × Option String)), Sketch.AttributeOk a := by simp
  have htokens : tokens 0 "<ul><li a=\"x\">é</ul>".toList = _ := Sketch.tokens_startTag hul hnone (.inr (by decide))
    (Sketch.tokens_startTag hli ha (.inr (by decide))
      (Sketch.tokens_text (by decide : "é".toList ≠ []) (by decide)
        (Sketch.endsHere_endTag "ul" []) (Sketch.tokens_endTag hul (hend _))))
  have hread := read_eq_ok htokens "d"
  have hfit : size "<ul><li a=\"x\">é</ul>".toList < UInt32.size := by decide
  exact ⟨hfit, hread, (accounts_of_read hfit hread).1⟩

end Markup

end Relabel
