import Relabel.Proofs.Extraction.Lookup
import Relabel.Proofs.Extraction.Templates

/-!
# Walks

`Walked site scope nodes found`: a walk over `nodes` found `found`, by the kinds of nodes. It keeps apart
the elements whose content is looked at in the same scope, and the loops, whose content is seen from
inside (`openLoop_eq_ok` gives the parts of a loop). Every template that was extracted comes from such a
walk, with no loop around it (`walked_of_extracts`); what holds of all that is found is proved by
induction on the relation.
-/

namespace Relabel.Site
open Text
open Markup (Node Head Attribute Document preorderOf)
variable {site : Site} {scope : Scope} {head : Head} {children nodes : List Node} {found : Found}
  {opening : Opening} {bound : LoopVariable} {document : Document} {d : DocumentUsages}
  {t : TemplateUsages}

/-- The attributes of an element with their usages. -/
def attributesFound (site : Site) (scope : Scope) (head : Head) : List (Attribute × Found) :=
  head.attributes.map fun a => (a, site.allAttributeUsages scope head a)

/-- The usages of the attributes of an element. -/
def ownUsages (site : Site) (scope : Scope) (head : Head) : Found :=
  Found.concat ((site.attributesFound scope head).map (·.2))

/-! ### Loops -/

/-- A variable that has its name from a piece is called like what the attribute holds. -/
theorem loopVariable_eq_some {attr standard : String} {name : Piece}
    (h : site.loopVariable head attr standard = (bound, some name)) :
    bound = ⟨name.text, false, site.options.renameAliases⟩ ∧
      ∃ value, (head.attribute? attr).bind (·.value) = some value ∧ name = trimmed value := by
  unfold loopVariable at h
  split at h
  · cases h
  · next value hvalue =>
    split at h
    · cases h
    · simp only at h
      split at h
      · cases h
      · cases h
        exact ⟨rfl, value, hvalue, rfl⟩

/-- The parts of a loop that is entered. -/
theorem openLoop_eq_ok {attributes : List (Attribute × Found)}
    (h : site.openLoop scope head attributes = .ok opening) :
    boundUsage? attributes "items" = some opening.items ∧
      (∃ phrase, opening.items.phrase? = some phrase ∧ opening.before =
        site.callbackUsages scope head "sort" .sort (boundUsage? attributes "sort") phrase ++
          site.callbackUsages scope head "filter" .filter (boundUsage? attributes "filter") phrase) ∧
      ∃ itemName indexName,
        site.loopVariable head "as" defaultItem = (opening.frame.item, itemName) ∧
        site.loopVariable head "index-as" defaultIndex = (opening.frame.index, indexName) ∧
        opening.inside =
          ⟨(variableUsage? .item opening.frame.item (scope.enter opening.frame).depth
              itemName).toList ++
            (variableUsage? .index opening.frame.index (scope.enter opening.frame).depth
              indexName).toList, []⟩ ++
          site.observedUsages (scope.enter opening.frame) head opening.frame.item.name := by
  unfold openLoop at h
  simp only [bind, Except.bind, pure, Except.pure] at h
  -- the list is a path that refers to something or has a value of another kind
  split at h
  · cases h
  · next hitems =>
    split at h
    · obtain rfl := Except.ok.inj h
      exact ⟨hitems, ⟨_, rfl, rfl⟩, _, _, rfl, rfl, rfl⟩
    · cases h
  · next hitems =>
    split at h
    · next phrase hphrase =>
      obtain rfl := Except.ok.inj h
      exact ⟨hitems, ⟨phrase, hphrase, rfl⟩, _, _, rfl, rfl, rfl⟩
    · cases h

/-! ### The relation -/

/-- A walk over some nodes that found something; warnings about loops that were passed over are left
open. -/
inductive Walked (site : Site) : Scope → List Node → Found → Prop where
  | nil {scope : Scope} {warnings : List Warning} : Walked site scope [] ⟨[], warnings⟩
  | cons {scope : Scope} {n : Node} {ns : List Node} {first rest : Found}
      (hn : Walked site scope [n] first) (hns : Walked site scope ns rest) :
      Walked site scope (n :: ns) (first ++ rest)
  | comment {scope : Scope} {span : Span} : Walked site scope [.comment span] {}
  | text {scope : Scope} {piece : Piece} : Walked site scope [.text piece] (site.textUsages scope piece)
  /-- An element; its content is passed over or seen from the same scope. -/
  | element {scope : Scope} {head : Head} {children nodes : List Node} {content : Found}
      (hnodes : nodes = [] ∨ nodes = children) (hcontent : Walked site scope nodes content) :
      Walked site scope [.element head children] (site.ownUsages scope head ++ content)
  /-- A loop; its content is passed over or seen from inside. -/
  | loop {scope : Scope} {head : Head} {children nodes : List Node} {opening : Opening}
      {content : Found} (hrepeat : head.isRepeat = true)
      (hopening : site.openLoop scope head (site.attributesFound scope head) = .ok opening)
      (hnodes : nodes = [] ∨ nodes = children)
      (hcontent : Walked site (scope.enter opening.frame) nodes content) :
      Walked site scope [.element head children]
        (site.ownUsages scope head ++ closeLoop scope head opening content)

theorem eq_of_attributesOf {attributes : List (Attribute × Found)}
    (h : site.attributesOf scope head = .ok attributes) : attributes = site.attributesFound scope head := by
  unfold attributesOf at h
  unfold attributesFound
  generalize head.attributes = as at h ⊢
  induction as generalizing attributes with
  | nil => exact (Except.ok.inj h).symm
  | cons a as ih =>
    simp only [List.mapM_cons, bind, Except.bind, pure, Except.pure] at h ih
    split at h
    · cases h
    · next r hr =>
      split at hr
      · cases hr
      · obtain rfl := Except.ok.inj hr
        split at h
        · cases h
        · next rs hrs =>
          obtain rfl := Except.ok.inj h
          rw [List.map_cons, ih hrs]

mutual

theorem walked_of_walkNode : ∀ {n : Node} {scope : Scope} {found : Found},
    site.walkNode scope n = .ok found → site.Walked scope [n] found
  | .comment _, scope, found, h => by
    cases h
    exact .comment
  | .text piece, scope, found, h => by
    cases h
    exact .text
  | .element head children, scope, found, h => by
    simp only [walkNode, bind, Except.bind, pure, Except.pure] at h
    split at h
    · cases h
    · next attributes hattributes =>
      obtain rfl := eq_of_attributesOf hattributes
      -- the content of a raw text element is not walked
      split at h
      · next hrepeat =>
        split at h
        · obtain rfl := Except.ok.inj h
          exact .element (.inl rfl) .nil
        · next opening hopening =>
          split at h
          · obtain rfl := Except.ok.inj h
            exact .loop hrepeat hopening (.inl rfl) .nil
          · split at h
            · cases h
            · next content hcontent =>
              obtain rfl := Except.ok.inj h
              exact .loop hrepeat hopening (.inr rfl) (walked_of_walk hcontent)
      · split at h
        · obtain rfl := Except.ok.inj h
          exact .element (.inl rfl) .nil
        · split at h
          · cases h
          · next content hcontent =>
            obtain rfl := Except.ok.inj h
            exact .element (.inr rfl) (walked_of_walk hcontent)

theorem walked_of_walk : ∀ {nodes : List Node} {scope : Scope} {found : Found},
    site.walk scope nodes = .ok found → site.Walked scope nodes found
  | [], scope, found, h => by
    cases h
    exact .nil
  | n :: nodes, scope, found, h => by
    simp only [walk, bind, Except.bind, pure, Except.pure] at h
    split at h
    · cases h
    · next first hfirst =>
      split at h
      · cases h
      · next rest hrest =>
        obtain rfl := Except.ok.inj h
        exact .cons (walked_of_walkNode hfirst) (walked_of_walk hrest)

end

/-- A template of an extraction was found in nodes of the document, by a walk outside of all loops. -/
theorem walked_of_extracts (h : site.Extracts document d) (ht : t ∈ d.templates) :
    ∃ scope content found, (preorderOf content).Sublist (preorderOf document.children) ∧ scope.frames = [] ∧
      site.Walked scope content found ∧ t.usages = found.usages := by
  obtain ⟨owner, content, warnings, hcontent, htemplate⟩ := template_of_extracts h ht
  unfold template at htemplate
  split at htemplate
  · next typeName _ =>
    cases hwalk : site.walk { owner, schema := site.schemas.get? owner } content with
    | error e => rw [hwalk] at htemplate; cases htemplate
    | ok found =>
      rw [hwalk] at htemplate
      cases htemplate
      exact ⟨_, content, found, hcontent, rfl, walked_of_walk hwalk, rfl⟩
  · cases htemplate

end Relabel.Site
