import Relabel.Proofs.Extraction.Names
import Relabel.Proofs.Fragment.Writable

/-!
# Documents whose names are those of a script

`WellNamed ns templates`: the bindings, listeners and loops among the nodes `ns` name what a script can
name, and the types of the templates can stand in a comment. The properties of the elements that the
templates bind to are asked for apart (`HasPaths`): they are made of the names of attributes, which markup
restricts less than a script does. All names of usages come from such places (`Usage.Origin`), so the
templates are writable (`WellNamed.writable_of_extracts`).
-/

namespace Relabel
open Text
open Markup (Node Document IsBound IsLiteral Listens Observes NamedBy preorderOf)
open Fragment (isName isIdentifier isVariable segments literal? InComment)
variable {name item object : String} {q : Qualifier} {ns : List Node} {fs : List Frame} {f : Frame} {u : Usage}
  {us : List Usage} {k : Nat} {site : Site} {document : Document} {d : DocumentUsages} {t : TemplateUsages}
  {e : String × String}

/-! ### Elements -/

namespace Usage

mutual

/-- The elements that a usage binds to: the type of each and the property that it names or sets. -/
def targets : Usage → List (String × String)
  | call _ _ _ args => targetsOf args
  | loop _ items _ _ children => targets items ++ targetsOf children
  | attributeName _ _ type property => [(type, property)]
  | dataFlow _ _ type property _ _ => [(type, property)]
  | _ => []

/-- The elements that some usages bind to. -/
def targetsOf : List Usage → List (String × String)
  | [] => []
  | u :: us => targets u ++ targetsOf us

end

theorem mem_targetsOf : e ∈ targetsOf us ↔ ∃ u ∈ us, e ∈ u.targets := by
  induction us with
  | nil => simp [targetsOf]
  | cons u us ih => simp [targetsOf, ih]

theorem mem_targetsOf_of_within (h : Within us fs u) (he : e ∈ u.targets) : e ∈ targetsOf us := by
  induction h with
  | here hu => exact mem_targetsOf.2 ⟨_, hu, he⟩
  | argument hcall _ ih => exact mem_targetsOf.2 ⟨_, hcall, ih he⟩
  | items hloop _ ih =>
    refine mem_targetsOf.2 ⟨_, hloop, List.mem_append_left _ ?_⟩
    simpa [targetsOf] using ih he
  | inside hloop _ ih => exact mem_targetsOf.2 ⟨_, hloop, List.mem_append_right _ (ih he)⟩

end Usage

/-! ### Names -/

theorem segments_append (a b : String) : segments (a ++ "." ++ b) = segments a ++ segments b := by
  have hdot : ".".toList = ['.'] := rfl
  rw [segments, String.toList_append, String.toList_append, hdot, List.append_assoc, List.singleton_append,
    List.splitOn_append_cons_self, List.map_append]
  rfl

theorem isPath_of_isVariable (h : isVariable name = true) : IsPath name := by
  have hname := Fragment.isName_of_isVariable h
  rw [IsPath, Fragment.segments_of_isName hname]
  simpa using hname

theorem isPath_append (hitem : isVariable item = true) (hname : IsPath name) :
    IsPath (item ++ "." ++ name) := by
  intro n hn
  rw [segments_append, List.mem_append] at hn
  exact hn.elim (isPath_of_isVariable hitem n) (hname n)

/-- A path can be written if it starts with the variable that it is qualified by. -/
theorem Qualifier.writes_of_isPath (hname : IsPath name)
    (hbase : ∀ base ∈ q.base?, leadingSegment name = base ∧ isIdentifier base = true) : q.Writes name := by
  have hvariable {base : String} (h : base ∈ q.base?) : (Fragment.Phrase.name name).Ok := by
    obtain ⟨rfl, hleading⟩ := hbase base h
    exact ⟨_, _, segments_eq_cons name, hleading, fun n hn => hname n (List.mem_of_mem_tail hn)⟩
  refine ⟨?_, fun base h => (hbase base h).2⟩
  cases q with
  | component renameable => exact hname
  | loop role bound depth => exact hvariable rfl
  | item base => exact hvariable rfl

theorem Settled.writes (h : Settled k fs name q) (hname : IsPath name)
    (hfs : ∀ f ∈ fs, ∀ role, isIdentifier (f.variable role).name = true) : q.Writes name := by
  refine Qualifier.writes_of_isPath hname fun base hbase => ?_
  obtain ⟨hleading, f, hf, role, rfl⟩ := h.eq_base hbase
  exact ⟨hleading, hfs f hf role⟩

/-! ### Usages -/

/-- The names of a usage are dotted lists of identifiers, the variables of a loop are identifiers and no
reserved words, arguments are literals of a script, and types can stand in a comment. -/
def Usage.HasNames : Usage → Prop
  | .path _ name _ _ => IsPath name
  | .call _ name _ _ => IsPath name
  | .literal text => (literal? text).isSome = true
  | .loop _ _ frame _ _ => ∀ role, isIdentifier (frame.variable role).name = true
  | .attributeName _ _ type property => InComment type ∧ IsPath property
  | .listener _ method _ => IsPath method
  | .dataFlow _ _ type property _ _ => InComment type ∧ IsPath property
  | .callback .. => True

/-- All names of a template are those of a script. -/
structure TemplateUsages.HasNames (t : TemplateUsages) : Prop where
  typeName : InComment t.typeName
  usages : ∀ fs u, Within t.usages fs u → u.HasNames

namespace TemplateUsages.HasNames

/-- What has the names of a script can be written: a path starts with the variable that it is qualified by. -/
theorem writable_of_within (h : t.HasNames) (hextracts : site.Extracts document d) (ht : t ∈ d.templates)
    (hu : Within t.usages fs u) : u.Writable := by
  have hnamed := h.usages fs u hu
  have hfs : ∀ f ∈ fs, ∀ role, isIdentifier (f.variable role).name = true := fun f hf => by
    obtain ⟨gs, span, items, depth, children, hloop⟩ := hu.exists_loop hf
    exact h.usages gs _ hloop
  have hcomponent {path : String} {renameable : Bool} (hpath : IsPath path) :
      (Qualifier.component renameable).Writes path :=
    Qualifier.writes_of_isPath hpath (by simp [Qualifier.base?])
  cases Site.origin_of_within hextracts ht hu with
  | path hp hq => exact hq.writes hnamed hfs
  | observed hp hf hq => exact hq.writes hnamed hfs
  | @variableName p role f hp hf hbound =>
    have hvariable := hfs f (List.mem_of_getLast? hf) role
    rw [hbound] at hvariable
    refine Qualifier.writes_of_isPath hnamed fun base hbase => ?_
    obtain rfl := Option.some.inj hbase
    exact ⟨leadingSegment_of_isName (Fragment.isName_of_isIdentifier hvariable), hvariable⟩
  | callbackName hp hattr => exact hcomponent hnamed
  | call hp hq => exact hq.writes hnamed hfs
  | literal => exact hnamed
  | loop => exact hnamed
  | attributeName => exact hnamed
  | listener hp hq => exact hq.writes hnamed hfs
  | dataFlow => exact hnamed
  | callback => trivial

theorem writable_of_extracts (h : t.HasNames) (hextracts : site.Extracts document d) (ht : t ∈ d.templates) :
    t.Writable := by
  obtain ⟨scope, content, found, -, -, hwalked, husages⟩ := Site.walked_of_extracts hextracts ht
  refine ⟨h.typeName, ?_, fun fs u hu => h.writable_of_within hextracts ht hu⟩
  rw [husages]
  exact hwalked.linked

end TemplateUsages.HasNames

/-! ### Documents -/

/-- The names in a document are those of a script. -/
structure WellNamed (ns : List Node) (templates : List TemplateUsages) : Prop where
  /-- The path of a binding, or its method and the paths among the arguments. -/
  bindings : ∀ p, IsBound ns p → IsPath p.text
  /-- The other arguments. -/
  literals : ∀ p, IsLiteral ns p → (literal? p.text).isSome = true
  listeners : ∀ p, Listens ns p → IsPath p.text
  observed : ∀ p, Observes ns p → IsPath p.text
  aliases : ∀ head children, .element head children ∈ preorderOf ns → head.isRepeat = true →
    ∀ role : LoopRole, isVariable (role.nameIn head) = true
  /-- A method that sorts or filters without a binding. -/
  callbacks : ∀ t ∈ templates, ∀ fs attr p renameable, attr ∈ ["sort", "filter"] → NamedBy ns attr p →
    Within t.usages fs (.path p.span p.text (.component renameable) .expression) → IsPath p.text
  types : ∀ t ∈ templates, InComment t.typeName ∧ ∀ e ∈ Usage.targetsOf t.usages, InComment e.1

/-- Whether a node gives no loop variable a name. -/
def Markup.Node.spares (object : String) : Node → Bool
  | .element head _ =>
    !head.isRepeat || (LoopRole.item.nameIn head != object && LoopRole.index.nameIn head != object)
  | _ => true

/-- The properties that attributes of some templates are named for can be written behind a dot. -/
def HasPaths (templates : List TemplateUsages) : Prop :=
  ∀ t ∈ templates, ∀ e ∈ Usage.targetsOf t.usages, IsPath e.2

/-! ### A check -/

/-- Whether the bindings of a text or of a value name what a script can name. -/
def Piece.isScriptable (v : Piece) : Bool :=
  (Binding.findAll v.text v.span.start).all fun b =>
    b.names.all (fun p => decide (IsPath p.text)) && b.literals.all fun p => (literal? p.text).isSome

/-- Whether all of a text or of a value, blanks apart, is a path. -/
def Piece.holdsPath (v : Piece) : Bool :=
  decide (IsPath (Site.trimmed v).text)

/-- Whether the variables, the functions and the `observe` list of a loop are named as a script can name
them. -/
def Markup.Head.isScriptableLoop (head : Markup.Head) : Bool :=
  isVariable (LoopRole.item.nameIn head) && isVariable (LoopRole.index.nameIn head) &&
    (["sort", "filter"].all fun attr => ((head.attribute? attr).bind (·.value)).all Piece.holdsPath) &&
    ((head.attribute? "observe").bind (·.value)).all fun v =>
      (Site.wordsFrom v.span.start [] v.text.toList).all fun p => decide (IsPath p.text)

/-- Whether a node names what a script can name; no listener and no function of a loop is bound. -/
def Markup.Node.isScriptable : Node → Bool
  | .comment _ => true
  | .text v => v.isScriptable
  | .element head _ =>
    (head.attributes.all fun a =>
      a.value.all Piece.isScriptable && (!Site.isListener a || a.value.all Piece.holdsPath)) &&
    (!head.isRepeat || head.isScriptableLoop)

/-- The names in a document are those of a script if each node passes the check. -/
theorem wellNamed_of_isScriptable {templates : List TemplateUsages}
    (h : ∀ n ∈ preorderOf ns, n.isScriptable = true)
    (htypes : ∀ t ∈ templates, InComment t.typeName ∧ ∀ e ∈ Usage.targetsOf t.usages, InComment e.1) :
    WellNamed ns templates := by
  have hattribute {head : Markup.Head} {children : List Node} (he : .element head children ∈ preorderOf ns) :
      ∀ a ∈ head.attributes, ∀ v, a.value = some v →
        v.isScriptable = true ∧ (Site.isListener a = true → v.holdsPath = true) := by
    intro a ha v hv
    have hnode := h _ he
    rw [Markup.Node.isScriptable, Bool.and_eq_true, List.all_eq_true] at hnode
    simpa [hv, ← Bool.not_eq_true, imp_iff_not_or] using hnode.1 a ha
  have hloop {head : Markup.Head} {children : List Node} (he : .element head children ∈ preorderOf ns)
      (hrepeat : head.isRepeat = true) : head.isScriptableLoop = true := by
    have hnode := h _ he
    rw [Markup.Node.isScriptable, Bool.and_eq_true, hrepeat] at hnode
    exact hnode.2
  have htext {v : Piece} (hv : Markup.IsText ns v) : v.isScriptable = true := by
    rcases hv with hv | ⟨head, children, he, a, ha, hv⟩
    · exact h _ hv
    · exact (hattribute he a ha v hv).1
  refine ⟨?_, ?_, ?_, ?_, ?_, ?_, htypes⟩
  · rintro p ⟨v, hv, hp⟩
    obtain ⟨b, hb, hp⟩ := List.mem_flatMap.1 hp
    have hbinding := List.all_eq_true.1 (htext hv) b hb
    rw [Bool.and_eq_true, List.all_eq_true] at hbinding
    exact of_decide_eq_true (hbinding.1 p hp)
  · rintro p ⟨v, hv, hp⟩
    obtain ⟨b, hb, hp⟩ := List.mem_flatMap.1 hp
    have hbinding := List.all_eq_true.1 (htext hv) b hb
    rw [Bool.and_eq_true, List.all_eq_true (l := b.literals)] at hbinding
    exact hbinding.2 p hp
  · rintro p ⟨head, children, he, a, ha, hon, v, hv, -, rfl⟩
    exact of_decide_eq_true ((hattribute he a ha v hv).2 hon)
  · rintro p ⟨head, children, v, he, hrepeat, hv, -, hp⟩
    have hscriptable := hloop he hrepeat
    rw [Markup.Head.isScriptableLoop, Bool.and_eq_true, hv] at hscriptable
    exact of_decide_eq_true (List.all_eq_true.1 hscriptable.2 p hp)
  · intro head children he hrepeat role
    have hscriptable := hloop he hrepeat
    simp only [Markup.Head.isScriptableLoop, Bool.and_eq_true] at hscriptable
    cases role with
    | item => exact hscriptable.1.1.1
    | index => exact hscriptable.1.1.2
  · rintro t - fs attr p renameable hattr ⟨head, children, v, he, hrepeat, hv, rfl⟩ -
    have hscriptable := hloop he hrepeat
    simp only [Markup.Head.isScriptableLoop, Bool.and_eq_true] at hscriptable
    have hpath := List.all_eq_true.1 hscriptable.1.2 attr hattr
    rw [hv, Option.all_some] at hpath
    exact of_decide_eq_true hpath

/-! ### Templates -/

namespace WellNamed

theorem isVariable_of_loop (h : WellNamed document.children d.templates) (hextracts : site.Extracts document d)
    (ht : t ∈ d.templates) {span : Span} {items : Usage} {depth : Nat}
    (hu : Within t.usages fs (.loop span items f depth us)) (role : LoopRole) :
    isVariable (f.variable role).name = true := by
  cases Site.origin_of_within hextracts ht hu with
  | loop he hrepeat hnames =>
    rw [hnames role]
    exact h.aliases _ _ he hrepeat role

theorem isVariable_of_within (h : WellNamed document.children d.templates)
    (hextracts : site.Extracts document d) (ht : t ∈ d.templates) (hu : Within t.usages fs u) :
    ∀ f ∈ fs, ∀ role, isVariable (f.variable role).name = true := by
  intro f hf
  obtain ⟨gs, span, items, depth, children, hloop⟩ := hu.exists_loop hf
  exact h.isVariable_of_loop hextracts ht hloop

/-- All names of a template come from names in its document. -/
theorem hasNames_of_within (h : WellNamed document.children d.templates) (hpaths : HasPaths d.templates)
    (hextracts : site.Extracts document d) (ht : t ∈ d.templates) (hu : Within t.usages fs u) : u.HasNames := by
  have hfs := h.isVariable_of_within hextracts ht hu
  have htarget {e : String × String} (he : e ∈ u.targets) : InComment e.1 ∧ IsPath e.2 := by
    have hmem := Usage.mem_targetsOf_of_within hu he
    exact ⟨(h.types t ht).2 e hmem, hpaths t ht e hmem⟩
  cases Site.origin_of_within hextracts ht hu with
  | path hp hq => exact h.bindings _ hp
  | observed hp hf hq =>
    -- an entry is a property of the item of the innermost loop
    have hitem := hfs _ (List.mem_of_getLast? hf) .item
    exact isPath_append hitem (h.observed _ hp)
  | @variableName p role f hp hf hbound =>
    have hvariable := hfs f (List.mem_of_getLast? hf) role
    rw [hbound] at hvariable
    exact isPath_of_isVariable hvariable
  | callbackName hp hattr => exact h.callbacks t ht fs _ _ _ hattr hp hu
  | call hp hq => exact h.bindings _ hp
  | literal hp => exact h.literals _ hp
  | loop he hrepeat hnames =>
    exact fun role => Fragment.isIdentifier_of_isVariable (h.isVariable_of_loop hextracts ht hu role)
  | attributeName he ha hname =>
    -- the name of the attribute is no binding, so nothing is known of the property but `hpaths`
    exact htarget (List.mem_singleton_self _)
  | listener hp hq => exact h.listeners _ hp
  | dataFlow hv => exact htarget (List.mem_singleton_self _)
  | callback hp => trivial

/-- Everything in a template of an extraction can be written. -/
theorem writable_of_extracts (h : WellNamed document.children d.templates) (hpaths : HasPaths d.templates)
    (hextracts : site.Extracts document d) (ht : t ∈ d.templates) : t.Writable :=
  TemplateUsages.HasNames.writable_of_extracts
    ⟨(h.types t ht).1, fun _ _ hu => h.hasNames_of_within hpaths hextracts ht hu⟩ hextracts ht

/-- Recovery can tell the names of such a document from the recording object, if no loop variable is called
like it. -/
theorem named_of_extracts (h : WellNamed document.children d.templates) (hpaths : HasPaths d.templates)
    (hextracts : site.Extracts document d) (hobject : isVariable object = true)
    (hspares : ∀ n ∈ preorderOf document.children, n.spares object = true) : d.Named object := by
  refine ⟨hobject, fun t ht => (h.types t ht).1, fun t ht fs u hu => ?_⟩
  have hnames := h.hasNames_of_within hpaths hextracts ht hu
  cases u with
  | loop span items f depth children =>
    intro role
    refine ⟨h.isVariable_of_loop hextracts ht hu role, ?_⟩
    cases Site.origin_of_within hextracts ht hu with
    | loop he hrepeat hn =>
      have hspare := hspares _ he
      rw [Markup.Node.spares, hrepeat, Bool.not_true, Bool.false_or, Bool.and_eq_true, bne_iff_ne, bne_iff_ne]
        at hspare
      rw [hn role]
      cases role with
      | item => exact hspare.1
      | index => exact hspare.2
  | callback => trivial
  | _ => exact hnames

end WellNamed

end Relabel
