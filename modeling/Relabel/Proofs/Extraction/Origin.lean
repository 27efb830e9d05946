import Relabel.Proofs.Binding.Names
import Relabel.Proofs.Extraction.Lookup
import Relabel.Proofs.Extraction.Templates
import Relabel.Proofs.Extraction.Within

/-!
# Where usages come from

`Usage.Origin ns k fs u`: the usage `u`, under loops with the frames `fs`, comes from a piece of the nodes
`ns`, and its name refers to what it was looked up as, with the loops deeper than `k` closed
(`Settled`). Each function of the walk gives usages with an origin (`Found.ComesFrom`) and closing a
loop keeps it, so everything in a template that was extracted has one (`origin_of_within`).
-/

namespace Relabel
open Text
open Markup (Node Head Attribute Document preorderOf)
variable {ns nodes : List Node} {k : Nat} {fs inner outer : List Frame} {f : Frame} {u : Usage}
  {us : List Usage} {v p : Piece} {scope : Scope} {site : Site} {head : Head} {children : List Node}
  {a : Attribute}

namespace Site

theorem stands_wordsFrom {start : Nat} {word cs : List Char} (h : p ∈ wordsFrom start word cs) :
    p.Stands start (word.reverse ++ cs) := by
  induction cs generalizing start word with
  | nil =>
    rw [wordsFrom] at h
    split at h
    · cases h
    · obtain rfl := List.mem_singleton.1 h
      exact Piece.stands_located_zero ..
  | cons c cs ih =>
    rw [wordsFrom] at h
    split at h
    · have hrest (h : p ∈ wordsFrom (start + size word + c.utf8Size) [] cs) :
          p.Stands start (word.reverse ++ c :: cs) := by
        have hp : p.Stands (start + size (word.reverse ++ [c])) cs := by
          simpa [size_reverse, Nat.add_assoc] using ih h
        simpa using hp.append_left
      simp only at h
      split at h
      · exact hrest h
      · rcases List.mem_cons.1 h with rfl | h
        · exact Piece.stands_located_zero ..
        · exact hrest h
    · simpa using ih h

theorem ordered_wordsFrom {start : Nat} {word cs : List Char}
    (hfit : start + size word + size cs < UInt32.size) : (wordsFrom start word cs).Pairwise Piece.Ahead := by
  induction cs generalizing start word with
  | nil =>
    rw [wordsFrom]
    split
    · exact .nil
    · exact List.pairwise_singleton ..
  | cons c cs ih =>
    rw [size_cons] at hfit
    have hlater : (wordsFrom (start + size word + c.utf8Size) [] cs).Pairwise Piece.Ahead :=
      ih (by rw [size_nil]; omega)
    rw [wordsFrom]
    split
    · simp only
      split
      · exact hlater
      · refine List.pairwise_cons.2 ⟨fun q hq => ?_, hlater⟩
        have hrest := (stands_wordsFrom hq).start_le (by simpa using by omega)
        have hpos := utf8Size_pos c
        unfold Piece.Ahead
        rw [Piece.located_of_lt (by rw [size_reverse]; omega), size_reverse]
        dsimp only
        omega
    · exact ih (by rw [size_cons]; omega)

end Site

namespace Markup

/-- A text node among some nodes or inside them, or the value of an attribute there. -/
def IsText (ns : List Node) (v : Piece) : Prop :=
  .text v ∈ preorderOf ns ∨
    ∃ head children, .element head children ∈ preorderOf ns ∧ ∃ a ∈ head.attributes, a.value = some v

/-- A piece of a text or of a value. -/
def Occurs (ns : List Node) (p : Piece) : Prop :=
  ∃ v, IsText ns v ∧ p.Stands v.span.start v.text.toList

/-- A name in a binding of a text or of a value. -/
def IsBound (ns : List Node) (p : Piece) : Prop :=
  ∃ v, IsText ns v ∧ p ∈ (Binding.findAll v.text v.span.start).flatMap Binding.names

/-- A literal that a binding of a text or of a value calls a method with. -/
def IsLiteral (ns : List Node) (p : Piece) : Prop :=
  ∃ v, IsText ns v ∧ p ∈ (Binding.findAll v.text v.span.start).flatMap Binding.literals

/-- A word of a text or of a value without bindings. -/
def IsWord (ns : List Node) (p : Piece) : Prop :=
  ∃ v, IsText ns v ∧ Binding.findAll v.text v.span.start = [] ∧
    p ∈ Site.wordsFrom v.span.start [] v.text.toList

/-- All of a text or of a value, blanks apart. -/
def IsTrimmed (ns : List Node) (p : Piece) : Prop :=
  ∃ v, IsText ns v ∧ p = Site.trimmed v

/-- A piece is all that an attribute of a loop holds, blanks apart. -/
def NamedBy (ns : List Node) (attr : String) (p : Piece) : Prop :=
  ∃ head children v, .element head children ∈ preorderOf ns ∧ head.isRepeat = true ∧
    (head.attribute? attr).bind (·.value) = some v ∧ p = Site.trimmed v

/-- A piece is all that a listener without bindings holds, blanks apart. -/
def Listens (ns : List Node) (p : Piece) : Prop :=
  ∃ head children, .element head children ∈ preorderOf ns ∧ ∃ a ∈ head.attributes,
    Site.isListener a = true ∧ ∃ v, a.value = some v ∧ Binding.findAll v.text v.span.start = [] ∧
      p = Site.trimmed v

/-- A piece is a word of the `observe` list of a loop. -/
def Observes (ns : List Node) (p : Piece) : Prop :=
  ∃ head children v, .element head children ∈ preorderOf ns ∧ head.isRepeat = true ∧
    (head.attribute? "observe").bind (·.value) = some v ∧ Binding.findAll v.text v.span.start = [] ∧
      p ∈ Site.wordsFrom v.span.start [] v.text.toList

theorem isText_of_attribute? {attr : String} (he : .element head children ∈ preorderOf ns)
    (hv : (head.attribute? attr).bind (·.value) = some v) : IsText ns v := by
  obtain ⟨a, ha, hav⟩ := Option.bind_eq_some_iff.1 hv
  exact .inr ⟨head, children, he, a, List.mem_of_find?_eq_some ha, hav⟩

theorem IsBound.occurs (h : IsBound ns p) : Occurs ns p := by
  obtain ⟨v, hv, hp⟩ := h
  obtain ⟨b, hb, hp⟩ := List.mem_flatMap.1 hp
  exact ⟨v, hv, Binding.stands_of_mem_names hb hp⟩

theorem IsWord.occurs (h : IsWord ns p) : Occurs ns p := by
  obtain ⟨v, hv, -, hp⟩ := h
  exact ⟨v, hv, Site.stands_wordsFrom hp⟩

theorem IsTrimmed.occurs (h : IsTrimmed ns p) : Occurs ns p := by
  obtain ⟨v, hv, rfl⟩ := h
  exact ⟨v, hv, Piece.stands_trimmedAt ..⟩

theorem Listens.isTrimmed (h : Listens ns p) : IsTrimmed ns p := by
  obtain ⟨head, children, he, a, ha, -, v, hv, -, rfl⟩ := h
  exact ⟨v, .inr ⟨head, children, he, a, ha, hv⟩, rfl⟩

theorem Observes.isWord (h : Observes ns p) : IsWord ns p := by
  obtain ⟨head, children, v, he, -, hv, hnone, hp⟩ := h
  exact ⟨v, isText_of_attribute? he hv, hnone, hp⟩

theorem Listens.occurs (h : Listens ns p) : Occurs ns p :=
  h.isTrimmed.occurs

theorem Observes.occurs (h : Observes ns p) : Occurs ns p :=
  h.isWord.occurs

theorem NamedBy.isTrimmed {attr : String} (h : NamedBy ns attr p) : IsTrimmed ns p := by
  obtain ⟨head, children, v, he, -, hv, rfl⟩ := h
  exact ⟨v, isText_of_attribute? he hv, rfl⟩

theorem NamedBy.occurs {attr : String} (h : NamedBy ns attr p) : Occurs ns p :=
  h.isTrimmed.occurs

end Markup

open Markup

/-- The attribute that gives a variable its name. -/
def LoopRole.attribute : LoopRole → String
  | .item => "as"
  | .index => "index-as"

/-- The name of a variable where the template gives none. -/
def LoopRole.standard : LoopRole → String
  | .item => Site.defaultItem
  | .index => Site.defaultIndex

/-- The name that a loop gives to a variable: what the attribute binds or, without a binding, what it
holds, and otherwise the standard one. -/
def LoopRole.nameIn (role : LoopRole) (head : Head) : String :=
  match (head.attribute? role.attribute).bind (·.value) with
  | none => role.standard
  | some v =>
    match Binding.find? v.text v.span.start with
    | some b => b.expression.text
    | none => if (Site.trimmed v).text.isEmpty then role.standard else (Site.trimmed v).text

/-- The piece that a usage comes from, and what its name refers to while the loops up to `k` are open. -/
inductive Usage.Origin (ns : List Node) (k : Nat) (fs : List Frame) : Usage → Prop where
  | path {p : Piece} {q : Qualifier} (hp : IsBound ns p) (hq : Settled k fs p.text q) :
      Usage.Origin ns k fs (.path p.span p.text q .expression)
  /-- An entry of the `observe` list of the innermost loop. -/
  | observed {p : Piece} {q : Qualifier} {f : Frame} (hp : Observes ns p) (hf : fs.getLast? = some f)
      (hq : Settled k fs (f.item.name ++ "." ++ p.text) q) :
      Usage.Origin ns k fs (.path p.span (f.item.name ++ "." ++ p.text) q .observed)
  /-- The name of a variable where the innermost loop introduces it. -/
  | variableName {p : Piece} {role : LoopRole} {f : Frame} (hp : NamedBy ns role.attribute p)
      (hf : fs.getLast? = some f) (hbound : f.variable role = ⟨p.text, false, true⟩) :
      Usage.Origin ns k fs (.path p.span p.text (.loop role ⟨p.text, false, true⟩ fs.length) .expression)
  /-- The bare name of a method that sorts or filters. -/
  | callbackName {p : Piece} {attr : String} {renameable : Bool} (hp : NamedBy ns attr p)
      (hattr : attr ∈ ["sort", "filter"]) :
      Usage.Origin ns k fs (.path p.span p.text (.component renameable) .expression)
  | call {p : Piece} {q : Qualifier} {args : List Usage} (hp : IsBound ns p)
      (hq : Settled k fs p.text q) : Usage.Origin ns k fs (.call p.span p.text q args)
  | literal {p : Piece} (hp : IsLiteral ns p) : Usage.Origin ns k fs (.literal p.text)
  | loop {head : Head} {children : List Node} {items : Usage} {frame : Frame} {depth : Nat}
      {us : List Usage} (he : .element head children ∈ preorderOf ns) (hrepeat : head.isRepeat = true)
      (hnames : ∀ role, (frame.variable role).name = role.nameIn head) :
      Usage.Origin ns k fs (.loop head.startTag items frame depth us)
  /-- A part of the name of an attribute. -/
  | attributeName {head : Head} {children : List Node} {a : Attribute} {x name y : List Char}
      {tag type : String} (he : .element head children ∈ preorderOf ns) (ha : a ∈ head.attributes)
      (hname : a.name.text.toList = x ++ name ++ y) :
      Usage.Origin ns k fs (.attributeName
        (.ofOffsets (a.name.span.start + size x) (a.name.span.start + size x + size name)) tag type
        (Site.propertyOf name))
  | listener {p : Piece} {q : Qualifier} (hp : Listens ns p) (hq : Settled k fs p.text q) :
      Usage.Origin ns k fs (.listener p.span p.text q)
  | dataFlow {v : Piece} {tag type property : String} {source : Fragment.Phrase} {twoWay : Bool}
      (hv : IsText ns v) : Usage.Origin ns k fs (.dataFlow v.span tag type property source twoWay)
  | callback {p : Piece} {kind : CallbackKind} {function items : Fragment.Phrase}
      (hp : Occurs ns p) : Usage.Origin ns k fs (.callback kind p.span function items)

namespace Usage.Origin

theorem rescope (h : Usage.Origin ns (k + 1) fs u) : Usage.Origin ns k fs (u.rescope (k + 1)) := by
  cases h with
  | path hp hq => exact .path hp hq.rescope
  | observed hp hf hq => exact .observed hp hf hq.rescope
  | @variableName p role f hp hf hbound =>
    cases role with
    | item => simpa [Usage.rescope, Qualifier.rescope] using variableName hp hf hbound
    | index => exact .variableName hp hf hbound
  | callbackName hp hattr => exact .callbackName hp hattr
  | call hp hq => exact .call hp hq.rescope
  | literal hp => exact .literal hp
  | loop he hrepeat hnames => exact .loop he hrepeat hnames
  | attributeName he ha hname => exact .attributeName he ha hname
  | listener hp hq => exact .listener hp hq.rescope
  | dataFlow hv => exact .dataFlow hv
  | callback hp => exact .callback hp

theorem close (h : Usage.Origin ns (outer.length + 1) (outer ++ f :: inner) u)
    (hdefault : f.item.isDefault = false) : Usage.Origin ns outer.length (outer ++ f :: inner) u := by
  cases h with
  | path hp hq => exact .path hp (hq.close hdefault)
  | observed hp hf hq => exact .observed hp hf (hq.close hdefault)
  | variableName hp hf hbound => exact .variableName hp hf hbound
  | callbackName hp hattr => exact .callbackName hp hattr
  | call hp hq => exact .call hp (hq.close hdefault)
  | literal hp => exact .literal hp
  | loop he hrepeat hnames => exact .loop he hrepeat hnames
  | attributeName he ha hname => exact .attributeName he ha hname
  | listener hp hq => exact .listener hp (hq.close hdefault)
  | dataFlow hv => exact .dataFlow hv
  | callback hp => exact .callback hp

/-- What has a value and a span stands in a text. -/
theorem occurs {span : Span} {phrase : Fragment.Phrase} (h : Usage.Origin ns k fs u)
    (hspan : u.span? = some span) (hphrase : u.phrase? = some phrase) :
    ∃ p, Occurs ns p ∧ p.span = span := by
  cases h with
  | path hp => exact ⟨_, hp.occurs, Option.some.inj hspan⟩
  | observed hp => exact ⟨_, hp.occurs, Option.some.inj hspan⟩
  | variableName hp => exact ⟨_, hp.occurs, Option.some.inj hspan⟩
  | callbackName hp => exact ⟨_, hp.occurs, Option.some.inj hspan⟩
  | call hp => exact ⟨_, hp.occurs, Option.some.inj hspan⟩
  | literal => cases hspan
  | loop => cases hphrase
  | attributeName => cases hphrase
  | listener => cases hphrase
  | dataFlow => cases hphrase
  | callback => cases hphrase

end Usage.Origin

/-- Everything in a usage has an origin, seen from a scope. -/
def Usage.ComesFrom (ns : List Node) (scope : Scope) : Usage → Prop :=
  Usage.Holds (Usage.Origin ns scope.depth) scope.frames.reverse

/-- Everything that was found has an origin, seen from a scope. -/
def Found.ComesFrom (ns : List Node) (scope : Scope) (found : Found) : Prop :=
  ∀ u ∈ found.usages, u.ComesFrom ns scope

namespace Found
variable {found found' : Found}

theorem ComesFrom.append (h : found.ComesFrom ns scope) (h' : found'.ComesFrom ns scope) :
    (found ++ found').ComesFrom ns scope := fun u hu =>
  (List.mem_append.1 hu).elim (h u) (h' u)

theorem comesFrom_nil (warnings : List Warning) : Found.ComesFrom ns scope ⟨[], warnings⟩ :=
  fun _ hu => nomatch hu

theorem comesFrom_concat {parts : List Found} (h : ∀ part ∈ parts, part.ComesFrom ns scope) :
    (concat parts).ComesFrom ns scope := by
  induction parts with
  | nil => exact comesFrom_nil _
  | cons part parts ih =>
    exact (h part (List.mem_cons_self ..)).append (ih fun p hp => h p (List.mem_cons_of_mem _ hp))

theorem comesFrom_toList {o : Option Usage} (h : ∀ u ∈ o, u.ComesFrom ns scope)
    (warnings : List Warning) : Found.ComesFrom ns scope ⟨o.toList, warnings⟩ :=
  fun u hu => h u (Option.mem_toList.1 hu)

end Found

namespace Site

/-! ### Bindings -/

theorem settled_of_looked {name : String} {q : Qualifier} (h : Looked scope.frames.reverse name q) :
    Settled scope.depth scope.frames.reverse name q := by
  simpa [Scope.depth] using h.settled

theorem comesFrom_pathUsage (hp : IsBound ns p) :
    (site.pathUsage scope p .expression).1.ComesFrom ns scope := by
  obtain ⟨q, hq, h⟩ := looked_pathUsage site scope p .expression
  rw [h]
  exact Usage.holds_leaf trivial (.path hp (settled_of_looked hq))

theorem comesFrom_callUsage {args : List Argument} (hp : IsBound ns p)
    (hpaths : ∀ a, .path a ∈ args → IsBound ns a) (hliterals : ∀ a, .literal a ∈ args → IsLiteral ns a) :
    (site.callUsage scope p args).1.ComesFrom ns scope := by
  have hfound : ∀ u ∈ (args.map (site.argumentUsage scope)).map (·.1), u.ComesFrom ns scope := by
    intro u hu
    obtain ⟨_, hr, rfl⟩ := List.mem_map.1 hu
    obtain ⟨a, ha, rfl⟩ := List.mem_map.1 hr
    cases a with
    | literal piece => exact Usage.holds_leaf trivial (.literal (hliterals piece ha))
    | path piece => exact comesFrom_pathUsage (hpaths piece ha)
  rcases looked_methodQualifier? scope p.text with ⟨q, h, hq⟩ | ⟨h, hq⟩
  · simp only [callUsage, h]
    exact Usage.holds_call (.call hp (settled_of_looked hq)) hfound
  · simp only [callUsage, h]
    exact Usage.holds_call (.call hp (settled_of_looked hq)) hfound

theorem comesFrom_bindingUsage? {b : Binding} {r : Usage × List Warning}
    (hnames : ∀ p ∈ b.names, IsBound ns p) (hliterals : ∀ p ∈ b.literals, IsLiteral ns p)
    (h : site.bindingUsage? scope b = some r) : r.1.ComesFrom ns scope := by
  unfold bindingUsage? at h
  unfold Binding.names at hnames
  unfold Binding.literals at hliterals
  split at h
  · next piece hpath =>
    rw [hpath] at hnames
    split at h
    · cases h
    · cases h
      exact comesFrom_pathUsage (hnames piece (List.mem_singleton_self _))
  · next method args hcall =>
    rw [hcall] at hnames hliterals
    cases h
    refine comesFrom_callUsage (hnames method (List.mem_cons_self ..)) (fun a ha => hnames a ?_)
      fun a ha => hliterals a ?_
    · exact List.mem_cons_of_mem _ (List.mem_filterMap.2 ⟨_, ha, rfl⟩)
    · exact List.mem_filterMap.2 ⟨_, ha, rfl⟩
  · cases h

/-- The bindings of a text or a value. -/
theorem comesFrom_bindingUsages (hv : IsText ns v) :
    (site.bindingUsages scope (Binding.findAll v.text v.span.start)).ComesFrom ns scope := by
  intro u hu
  obtain ⟨r, hr, rfl⟩ := List.mem_map.1 hu
  obtain ⟨b, hb, hbr⟩ := List.mem_filterMap.1 hr
  exact comesFrom_bindingUsage? (fun p hp => ⟨v, hv, List.mem_flatMap.2 ⟨b, hb, hp⟩⟩)
    (fun p hp => ⟨v, hv, List.mem_flatMap.2 ⟨b, hb, hp⟩⟩) hbr

/-! ### Attributes -/

theorem exists_withoutDollar_append (cs : List Char) : ∃ b, cs = withoutDollar cs ++ b := by
  unfold withoutDollar
  cases h : stripSuffix? ['$'] cs with
  | none => exact ⟨[], (List.append_nil cs).symm⟩
  | some stem => exact ⟨['$'], eq_append_of_stripSuffix? h⟩

theorem comesFrom_attributeNameUsage? {x name y : List Char} {tag : String}
    (he : .element head children ∈ preorderOf ns) (ha : a ∈ head.attributes)
    (hname : a.name.text.toList = x ++ name ++ y) :
    ∀ u ∈ site.attributeNameUsage? tag (propertyOf name) (a.name.span.start + size x) name,
      u.ComesFrom ns scope := by
  intro u hu
  obtain ⟨type, -, rfl⟩ := Option.map_eq_some_iff.1 hu
  exact Usage.holds_leaf trivial (.attributeName he ha hname)

theorem comesFrom_dataFlow? {tag property : String} {bindings : List Binding} {bound : List Usage}
    (hv : IsText ns v) : ∀ u ∈ site.dataFlow? tag property v bindings bound, u.ComesFrom ns scope := by
  intro u hu
  unfold dataFlow? at hu
  split at hu
  · simp only [Option.mem_def, Option.bind_eq_bind, Option.bind_eq_some_iff, Option.pure_def,
      Option.some.injEq] at hu
    obtain ⟨_, _, primary, _, type, _, source, _, rfl⟩ := hu
    exact Usage.holds_leaf trivial (.dataFlow hv)
  · cases hu

theorem comesFrom_attributeUsages (he : .element head children ∈ preorderOf ns)
    (ha : a ∈ head.attributes) : (site.attributeUsages scope head a).ComesFrom ns scope := by
  obtain ⟨b, hb⟩ := exists_withoutDollar_append a.name.text.toList
  have hname : ∀ u ∈ site.attributeNameUsage? head.effectiveTag
      (propertyOf (withoutDollar a.name.text.toList)) a.name.span.start
      (withoutDollar a.name.text.toList), u.ComesFrom ns scope :=
    comesFrom_attributeNameUsage? (x := []) (y := b) he ha hb
  simp only [attributeUsages]
  generalize hnamed : (if site.attributeRenameable head.effectiveTag
      (propertyOf (withoutDollar a.name.text.toList)) = true then _ else _ : Found) = named
  have hnamed' : named.ComesFrom ns scope := by
    subst hnamed
    split
    · exact Found.comesFrom_toList hname _
    · exact Found.comesFrom_nil _
  split
  · exact hnamed'
  · next value hvalue =>
    have hv : IsText ns value :=
      .inr ⟨head, children, he, a, ha, (Option.filter_eq_some_iff.1 hvalue).1⟩
    refine (hnamed'.append (comesFrom_bindingUsages hv)).append (Found.comesFrom_toList ?_ _)
    split
    · exact comesFrom_dataFlow? hv
    · exact fun u hu => nomatch hu

theorem comesFrom_listenerUsages {tag : String} (he : .element head children ∈ preorderOf ns)
    (ha : a ∈ head.attributes) (hon : isListener a = true) :
    (site.listenerUsages scope tag a).ComesFrom ns scope := by
  unfold listenerUsages
  split
  · exact Found.comesFrom_nil _
  · next value hvalue =>
    simp only
    split
    · exact Found.comesFrom_nil _
    · next hskip =>
      have hnone : Binding.findAll value.text value.span.start = [] := by
        simpa [Binding.find?] using (not_or.1 (mt Bool.or_eq_true_iff.2 hskip)).2
      have hlistener {q : Qualifier} (hq : Looked scope.frames.reverse (trimmed value).text q)
          (warnings : List Warning) : Found.ComesFrom ns scope
            (.one (.listener (trimmed value).span (trimmed value).text q) warnings) := by
        intro u hu
        obtain rfl := List.mem_singleton.1 hu
        exact Usage.holds_leaf trivial (.listener
          ⟨head, children, he, a, ha, hon, value, hvalue, hnone, rfl⟩ (settled_of_looked hq))
      rcases looked_methodQualifier? scope (trimmed value).text with ⟨q, h, hq⟩ | ⟨h, hq⟩
      · rw [h]
        exact hlistener hq _
      · rw [h]
        exact hlistener hq _

theorem utf8Size_lowerAscii (c : Char) : (lowerAscii c).utf8Size = c.utf8Size := by
  have hletter : ∀ n < 91, 65 ≤ n → (Char.ofNat (n + 32)).utf8Size = (Char.ofNat n).utf8Size := by
    decide
  unfold lowerAscii
  split
  · next h =>
    simp only [Bool.and_eq_true, decide_eq_true_eq, Char.le_def, UInt32.le_iff_toNat_le] at h
    have hc := hletter c.toNat (Nat.lt_succ_of_le h.2) h.1
    rwa [Char.ofNat_toNat] at hc
  · rfl

theorem size_map_lowerAscii (cs : List Char) : size (cs.map lowerAscii) = size cs := by
  induction cs with
  | nil => rfl
  | cons c cs ih => rw [List.map_cons, size_cons, size_cons, ih, utf8Size_lowerAscii]

/-- The name of a listener starts with three bytes, whatever the case of their letters. -/
theorem size_take_of_isListener (h : isListener a = true) : size (a.name.text.toList.take 3) = 3 := by
  obtain ⟨rest, hrest⟩ := Option.isSome_iff_exists.1 h
  have happend := eq_append_of_stripPrefix? hrest
  rw [lowercase, String.toList_ofList] at happend
  rw [← size_map_lowerAscii, List.map_take, happend]
  rfl

/-- The property that a listener for its changes names stands behind three bytes. -/
theorem exists_changed_append {changed : List Char} (hon : isListener a = true)
    (h : stripSuffix? "-changed".toList ((withoutDollar a.name.text.toList).drop 3) = some changed) :
    ∃ x y, a.name.text.toList = x ++ changed ++ ("-changed".toList ++ y) ∧ size x = 3 := by
  obtain ⟨b, hb⟩ := exists_withoutDollar_append a.name.text.toList
  have hevent := eq_append_of_stripSuffix? h
  have hlength : 3 ≤ (withoutDollar a.name.text.toList).length := by
    have := congrArg List.length hevent
    rw [List.length_drop, List.length_append] at this
    have : "-changed".toList.length = 8 := rfl
    omega
  refine ⟨(withoutDollar a.name.text.toList).take 3, b, ?_, ?_⟩
  · rw [List.append_assoc, ← List.append_assoc changed, ← hevent, ← List.append_assoc, List.take_append_drop, ← hb]
  · rw [← List.take_append_of_le_length hlength, ← hb]
    exact size_take_of_isListener hon

theorem comesFrom_changedUsages (he : .element head children ∈ preorderOf ns)
    (ha : a ∈ head.attributes) (hon : isListener a = true) :
    (site.changedUsages scope head a).ComesFrom ns scope := by
  simp only [changedUsages]
  split
  · next changed schema hchanged _ =>
    split
    · split
      · obtain ⟨x, y, hname, hthree⟩ := exists_changed_append hon hchanged
        refine Found.comesFrom_toList ?_ _
        rw [← hthree]
        exact comesFrom_attributeNameUsage? he ha hname
      · exact Found.comesFrom_nil _
    · split
      · exact Found.comesFrom_nil _
      · exact Found.comesFrom_nil _
  · exact Found.comesFrom_nil _

theorem comesFrom_allAttributeUsages (he : .element head children ∈ preorderOf ns)
    (ha : a ∈ head.attributes) : (site.allAttributeUsages scope head a).ComesFrom ns scope := by
  have hfound : (site.attributeUsages scope head a).ComesFrom ns scope :=
    comesFrom_attributeUsages he ha
  simp only [allAttributeUsages]
  split
  · next hon =>
    refine Found.ComesFrom.append (Found.ComesFrom.append ?_ (comesFrom_listenerUsages he ha hon))
      (comesFrom_changedUsages he ha hon)
    exact fun u hu => hfound u (List.mem_filter.1 hu).1
  · exact hfound

end Site

end Relabel
