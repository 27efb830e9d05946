import Relabel.Proofs.Binding.Standing
import Relabel.Proofs.Extraction.Flow
import Relabel.Proofs.Markup.Carriers

/-!
# The part of a template that is looked at

The attributes of every element that is met are looked at, but not the content of a raw text element, and
not the content of a loop whose list is missing or unknown (`Site.enters`). `Site.visited` cuts that
content off. What is left gives the same usages (`Site.walk_visited`), and nothing of it is moved.
-/

namespace Relabel
open Markup (Node Head Attribute Carrier preorderOf)
variable {site : Site} {scope : Scope} {head : Head} {a : Attribute} {b : Binding} {children ns : List Node}

/-- Whether a binding is a usage: it is no literal and, without its suffix, not empty. -/
def Binding.isUsed (b : Binding) : Bool :=
  match Expression.ofPiece b.expression with
  | .path p => !p.text.isEmpty
  | .literal _ => false
  | .call .. => true

namespace Markup

/-- The bindings in a text or in a value. -/
def Carrier.bindings : Carrier → List Binding
  | .name _ => []
  | .text v => Binding.findAll v.text v.span.start

/-- The bindings in the value of an attribute. -/
def Attribute.bindings (a : Attribute) : List Binding :=
  a.carriers.flatMap Carrier.bindings

/-- The bindings in the texts and values of some nodes, in their order. -/
def bindingsOf (ns : List Node) : List Binding :=
  ((preorderOf ns).flatMap Node.carriers).flatMap Carrier.bindings

theorem bindingsOf_cons (n : Node) (ns : List Node) :
    bindingsOf (n :: ns) = bindingsOf [n] ++ bindingsOf ns := by
  simp [bindingsOf, preorderOf]

theorem bindingsOf_text (v : Piece) : bindingsOf [.text v] = Binding.findAll v.text v.span.start := by
  simp [bindingsOf, preorderOf, Node.preorder, Node.carriers, Carrier.bindings]

theorem bindingsOf_element (head : Head) (children : List Node) :
    bindingsOf [.element head children] =
      head.attributes.flatMap Attribute.bindings ++ bindingsOf children := by
  simp only [bindingsOf, preorderOf, Node.preorder, Node.carriers, List.append_nil, List.flatMap_cons,
    List.flatMap_append, List.flatMap_assoc]
  rfl

end Markup

namespace Site

/-- The binding that gives a loop its list. -/
def listBinding? (head : Head) : Option Binding := do
  let a ← head.attributes.reverse.find? fun a => bindingKey a == "items"
  a.bindings.find? Binding.isUsed

/-- The binding that the last attribute with a key uses. -/
def lastBinding? (head : Head) (key : String) : Option Binding :=
  (head.attributes.reverse.find? fun a => bindingKey a == key).bind fun a => a.bindings.find? Binding.isUsed

/-- Whether the list of a loop is there and known; what a method gives is known. -/
def enters (scope : Scope) (head : Head) : Bool :=
  match listBinding? head with
  | none => false
  | some b =>
    match Expression.ofPiece b.expression with
    | .path p => resolves scope p.text
    | _ => true

/-- The variables of a loop. -/
def frame (site : Site) (head : Head) : Frame :=
  ⟨(site.loopVariable head "as" defaultItem).1, (site.loopVariable head "index-as" defaultIndex).1⟩

mutual

/-- A node without the content that is not looked at. -/
def visitedNode (site : Site) (scope : Scope) : Node → Node
  | .comment span => .comment span
  | .text piece => .text piece
  | .element head children =>
    .element head <|
      if site.options.isRawText head.tag then []
      else if head.isRepeat then
        if enters scope head then site.visited (scope.enter (site.frame head)) children else []
      else site.visited scope children

/-- Some nodes without the content that is not looked at. -/
def visited (site : Site) (scope : Scope) : List Node → List Node
  | [] => []
  | n :: ns => site.visitedNode scope n :: site.visited scope ns

end

/-! ### Bindings of attributes -/

theorem size_toList (s : String) : Text.size s.toList = s.utf8ByteSize := by
  have hsize (cs : List Char) : Text.size cs = (String.ofList cs).utf8ByteSize := by
    induction cs with
    | nil => rfl
    | cons c cs ih =>
      rw [Text.size_cons, ih, ← List.singleton_append, String.ofList_append, String.utf8ByteSize_append,
        ← String.singleton_eq_ofList, String.utf8ByteSize_singleton]
  rw [hsize, String.ofList_toList]

theorem isSome_bindingUsage? (site : Site) (scope : Scope) (b : Binding) :
    (site.bindingUsage? scope b).isSome = b.isUsed := by
  unfold bindingUsage? Binding.isUsed
  cases Expression.ofPiece b.expression with
  | path p => cases h : p.text.isEmpty <;> simp [h]
  | literal _ => rfl
  | call _ _ => rfl

theorem head?_bindingUsages (site : Site) (scope : Scope) (bs : List Binding) :
    (site.bindingUsages scope bs).usages.head? =
      (bs.find? Binding.isUsed).bind fun b => (site.bindingUsage? scope b).map (·.1) := by
  rw [bindingUsages, List.head?_map, List.head?_filterMap]
  induction bs with
  | nil => rfl
  | cons b bs ih =>
    rw [List.findSome?_cons, List.find?_cons, ← isSome_bindingUsage? site scope b]
    cases h : site.bindingUsage? scope b with
    | none => exact ih
    | some r => simp [h]

/-- What a loop reads is not named like a listener. -/
theorem isListener_of_bindingKey {key : String}
    (hkey : ∀ cs, Text.stripPrefix? "on-".toList (key.toList ++ cs) = none) (h : bindingKey a = key) :
    isListener a = false := by
  have hname : a.name.text.toList = (a.name.text.toList.reverse.dropWhile (· == '$')).reverse ++
      (a.name.text.toList.reverse.takeWhile (· == '$')).reverse := by
    rw [← List.reverse_append, List.takeWhile_append_dropWhile, List.reverse_reverse]
  have hchars : ((a.name.text.toList.reverse.dropWhile (· == '$')).reverse).map Text.lowerAscii = key.toList := by
    rw [bindingKey, Text.lowercase, String.toList_ofList] at h
    rw [← h, String.toList_ofList]
  -- a `$` at the end of the name does not make it start like that of a listener
  rw [isListener, Text.lowercase, hname, List.map_append, hchars, String.toList_ofList (l := _ ++ _), hkey]
  rfl

theorem bindingKey_of_attribute? {key : String} (h : head.attribute? key = some a)
    (hkey : key.toList.map Text.lowerAscii = key.toList ∧ '$' ∉ key.toList) : bindingKey a = key := by
  obtain ⟨hlower, hdollar⟩ := hkey
  have hletters := List.find?_some h
  have hchars : a.name.text.toList.map Text.lowerAscii = key.toList := (eq_of_beq hletters).trans hlower
  have hname : '$' ∉ a.name.text.toList := by
    intro hmem
    have := List.mem_map_of_mem (f := Text.lowerAscii) hmem
    rw [hchars] at this
    exact hdollar this
  have hdrop : a.name.text.toList.reverse.dropWhile (· == '$') = a.name.text.toList.reverse := by
    cases hcs : a.name.text.toList.reverse with
    | nil => rfl
    | cons c cs =>
      refine List.dropWhile_cons_of_neg fun hc => hname ?_
      rw [← eq_of_beq hc, ← List.mem_reverse, hcs]
      exact List.mem_cons_self
  rw [bindingKey, hdrop, List.reverse_reverse, Text.lowercase, String.toList_ofList, hchars, String.ofList_toList]

theorem isAttributeName_of_mem_bindingUsages {bs : List Binding} {u : Usage}
    (h : u ∈ (site.bindingUsages scope bs).usages) : isAttributeName u = false := by
  obtain ⟨r, hr, rfl⟩ := List.mem_map.1 h
  obtain ⟨b, -, hb⟩ := List.mem_filterMap.1 hr
  unfold bindingUsage? at hb
  split at hb
  · split at hb
    · cases hb
    · cases hb
      obtain ⟨q, -, hpath⟩ := looked_pathUsage site scope _ .expression
      rw [hpath]
      rfl
  · cases hb
    rfl
  · cases hb

theorem bindings_of_value {v : Piece} (h : a.value = some v) :
    a.bindings = Binding.findAll v.text v.span.start := by
  simp [Attribute.bindings, Attribute.carriers, h, Carrier.bindings]

theorem bindings_eq_nil (h : a.value.filter (3 ≤ ·.text.utf8ByteSize) = none) : a.bindings = [] := by
  cases hv : a.value with
  | none => simp [Attribute.bindings, Attribute.carriers, hv, Carrier.bindings]
  | some v =>
    rw [bindings_of_value hv]
    rw [hv, Option.filter_some] at h
    refine List.eq_nil_iff_forall_not_mem.2 fun b hb => ?_
    have hfour := Binding.four_le_size_of_mem_scan hb
    rw [size_toList] at hfour
    rw [if_pos (decide_eq_true (by omega))] at h
    cases h

/-- The usage of the name of an attribute, if it is a property that may be renamed. -/
def ownName? (site : Site) (head : Head) (a : Attribute) : Option Usage :=
  let name := withoutDollar a.name.text.toList
  if site.attributeRenameable head.effectiveTag (propertyOf name) then
    site.attributeNameUsage? head.effectiveTag (propertyOf name) a.name.span.start name
  else none

theorem isAttributeName_of_mem_ownName? {u : Usage} (h : u ∈ site.ownName? head a) : isAttributeName u = true := by
  simp only [ownName?] at h
  split at h
  · obtain ⟨type, -, rfl⟩ := Option.map_eq_some_iff.1 h
    rfl
  · cases h

/-- The usages of an attribute: its name, what it is bound to, and a data flow if it is bound to something. -/
theorem exists_attributeUsages (site : Site) (scope : Scope) (head : Head) (a : Attribute) :
    ∃ flow, (site.attributeUsages scope head a).usages =
        (site.ownName? head a).toList ++ (site.bindingUsages scope a.bindings).usages ++ flow ∧
      (∀ u ∈ flow, isDataFlow u = true) ∧
      ((site.bindingUsages scope a.bindings).usages = [] → flow = []) := by
  have hnamed : (if site.attributeRenameable head.effectiveTag (propertyOf (withoutDollar a.name.text.toList)) = true
      then ⟨(site.attributeNameUsage? head.effectiveTag (propertyOf (withoutDollar a.name.text.toList))
        a.name.span.start (withoutDollar a.name.text.toList)).toList, []⟩
      else {} : Found) = ⟨(site.ownName? head a).toList, []⟩ := by
    simp only [ownName?]
    split <;> rfl
  simp only [attributeUsages, hnamed]
  split
  · next hnone =>
    rw [bindings_eq_nil hnone]
    exact ⟨[], by simp [bindingUsages], by simp, fun _ => rfl⟩
  · next value hvalue =>
    rw [bindings_of_value (Option.filter_eq_some_iff.1 hvalue).1]
    refine ⟨_, rfl, fun u hu => ?_, fun hnil => ?_⟩
    · split at hu
      · exact (linked_dataFlow? u (Option.mem_toList.1 hu)).1
      · cases hu
    · rw [hnil]
      split
      · unfold dataFlow?
        split
        · simp
        · rfl
      · rfl

theorem head?_attributeUsages (hkey : isListener a = false) :
    ((site.allAttributeUsages scope head a).usages.filter (! isAttributeName ·)).head? =
      (a.bindings.find? Binding.isUsed).bind fun b => (site.bindingUsage? scope b).map (·.1) := by
  obtain ⟨flow, husages, hflow, hnil⟩ := exists_attributeUsages site scope head a
  have hbound : (site.bindingUsages scope a.bindings).usages.filter (! isAttributeName ·) =
      (site.bindingUsages scope a.bindings).usages :=
    List.filter_eq_self.2 fun u hu => by rw [isAttributeName_of_mem_bindingUsages hu]; rfl
  have hnames : (site.ownName? head a).toList.filter (! isAttributeName ·) = [] :=
    List.filter_eq_nil_iff.2 fun u hu => by simp [isAttributeName_of_mem_ownName? (Option.mem_toList.1 hu)]
  rw [← head?_bindingUsages, allAttributeUsages]
  simp only [hkey, Bool.false_eq_true, if_false]
  rw [husages, List.filter_append, List.filter_append, hnames, hbound, List.nil_append]
  -- a data flow comes after what flows, so it is never the first
  cases h : (site.bindingUsages scope a.bindings).usages with
  | nil => rw [hnil h]; rfl
  | cons u us => rfl

/-- What a loop is bound to is the first binding that the last attribute of the name uses. -/
theorem boundUsage?_eq {key : String} (hkey : ∀ cs, Text.stripPrefix? "on-".toList (key.toList ++ cs) = none)
    (site : Site) (scope : Scope) (head : Head) : boundUsage? (site.attributesFound scope head) key =
      (lastBinding? head key).bind fun b => (site.bindingUsage? scope b).map (·.1) := by
  rw [boundUsage?, attributesFound, ← List.map_reverse, List.find?_map, lastBinding?]
  simp only [Option.bind_eq_bind, Function.comp_def]
  cases h : head.attributes.reverse.find? fun a => bindingKey a == key with
  | none => simp only [Option.map_none, Option.bind_none]
  | some a =>
    simp only [Option.map_some, Option.bind_some]
    have hname : bindingKey a = key := by simpa using List.find?_some h
    exact head?_attributeUsages (isListener_of_bindingKey hkey hname)

theorem isSome_boundUsage? (key : String)
    (hkey : ∀ cs, Text.stripPrefix? "on-".toList (key.toList ++ cs) = none)
    (site : Site) (scope : Scope) (head : Head) :
    (boundUsage? (site.attributesFound scope head) key).isSome = (lastBinding? head key).isSome := by
  rw [boundUsage?_eq hkey]
  cases hlast : lastBinding? head key with
  | none => rfl
  | some b =>
    obtain ⟨a, -, hb⟩ := Option.bind_eq_some_iff.1 hlast
    have hused : b.isUsed = true := List.find?_some hb
    rw [Option.bind_some, Option.isSome_map, isSome_bindingUsage?, hused]
    rfl

theorem boundUsage?_items (site : Site) (scope : Scope) (head : Head) :
    boundUsage? (site.attributesFound scope head) "items" =
      (listBinding? head).bind fun b => (site.bindingUsage? scope b).map (·.1) :=
  boundUsage?_eq (fun _ => rfl) site scope head

theorem isOk_openLoop (site : Site) (scope : Scope) (head : Head) :
    (site.openLoop scope head (site.attributesFound scope head)).isOk = enters scope head := by
  rw [openLoop, boundUsage?_items, enters]
  cases hlist : listBinding? head with
  | none => rfl
  | some b =>
    obtain ⟨a, -, hb⟩ := Option.bind_eq_some_iff.1 hlist
    have hused : b.isUsed = true := List.find?_some hb
    rw [Option.bind_some, bindingUsage?]
    rw [Binding.isUsed] at hused
    cases hexpression : Expression.ofPiece b.expression with
    | path p =>
      rw [hexpression] at hused
      have hempty : p.text.isEmpty = false := by simpa using hused
      obtain ⟨q, -, hpath⟩ := looked_pathUsage site scope p .expression
      simp only [hexpression, hempty, Bool.false_eq_true, if_false, Option.map_some, hpath]
      cases resolves scope p.text <;> rfl
    | literal _ =>
      rw [hexpression] at hused
      cases hused
    | call method args =>
      simp only [hexpression]
      rfl

theorem openLoop_of_enters (site : Site) (h : enters scope head = true) :
    ∃ opening, opening.frame = site.frame head ∧
      site.openLoop scope head (site.attributesFound scope head) = .ok opening := by
  rw [← isOk_openLoop site] at h
  cases hopening : site.openLoop scope head (site.attributesFound scope head) with
  | error warnings => rw [hopening] at h; cases h
  | ok opening =>
    obtain ⟨-, -, itemName, indexName, hitem, hindex, -⟩ := openLoop_eq_ok hopening
    refine ⟨opening, ?_, rfl⟩
    rw [frame, hitem, hindex]

theorem openLoop_of_not_enters (site : Site) (h : enters scope head = false) :
    ∃ warnings, site.openLoop scope head (site.attributesFound scope head) = .error warnings := by
  rw [← isOk_openLoop site] at h
  cases hopening : site.openLoop scope head (site.attributesFound scope head) with
  | error warnings => exact ⟨warnings, rfl⟩
  | ok opening => rw [hopening] at h; cases h

/-! ### The walk -/

mutual

theorem walkNode_visitedNode : ∀ (n : Node) (scope : Scope),
    site.walkNode scope (site.visitedNode scope n) = site.walkNode scope n
  | .comment _, _ => rfl
  | .text _, _ => rfl
  | .element head children, scope => by
    rw [visitedNode, walkNode, walkNode]
    cases hattributes : site.attributesOf scope head with
    | error e => rfl
    | ok attributes =>
      obtain rfl := eq_of_attributesOf hattributes
      simp only [bind, Except.bind]
      cases hraw : site.options.isRawText head.tag with
      | true => simp only [if_true]
      | false =>
        cases hrepeat : head.isRepeat with
        | false => simp only [Bool.false_eq_true, if_false, walk_visited children]
        | true =>
          cases henters : enters scope head with
          | false =>
            obtain ⟨warnings, h⟩ := openLoop_of_not_enters site henters
            simp only [if_true, h]
          | true =>
            obtain ⟨opening, hframe, h⟩ := openLoop_of_enters site henters
            simp only [if_true, h, ← hframe, Bool.false_eq_true, if_false, walk_visited children]

/-- What is not looked at makes no difference. -/
theorem walk_visited : ∀ (ns : List Node) (scope : Scope),
    site.walk scope (site.visited scope ns) = site.walk scope ns
  | [], _ => rfl
  | n :: ns, scope => by rw [visited, walk, walk, walkNode_visitedNode n, walk_visited ns]

end

/-! ### Carriers -/

mutual

theorem carriers_visitedNode_sublist : ∀ (n : Node) (scope : Scope),
    ((site.visitedNode scope n).preorder.flatMap Node.carriers).Sublist
      (n.preorder.flatMap Node.carriers)
  | .comment _, _ => .refl _
  | .text _, _ => .refl _
  | .element head children, scope => by
    rw [visitedNode, Node.preorder, Node.preorder, List.flatMap_cons, List.flatMap_cons]
    refine (List.Sublist.refl _).append ?_
    split
    · exact List.nil_sublist _
    · split
      · split
        · exact carriers_visited_sublist children _
        · exact List.nil_sublist _
      · exact carriers_visited_sublist children _

theorem carriers_visited_sublist : ∀ (ns : List Node) (scope : Scope),
    ((preorderOf (site.visited scope ns)).flatMap Node.carriers).Sublist
      ((preorderOf ns).flatMap Node.carriers)
  | [], _ => .refl _
  | n :: ns, scope => by
    rw [visited, preorderOf, preorderOf, List.flatMap_append, List.flatMap_append]
    exact (carriers_visitedNode_sublist n scope).append (carriers_visited_sublist ns scope)

end

end Site

end Relabel
