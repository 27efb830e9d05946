import Relabel.Markup.Reader
import Relabel.Proofs.Text.Standing

/-!
# Markup to be written

A `Sketch` is markup without spans; `render` writes it and `place` is the tree that it stands for, with
the spans of the places where `render` puts each part. These are byte offsets; the tree that is read has
them as words (`Node.wrapped`). `Sketch.Ok` says which markup can be written. The attributes of a start
tag are read back: `attributes_render`.
-/

namespace Relabel.Markup
open Text

def Attribute.wrapped (a : Attribute) : Attribute :=
  ⟨a.name.wrapped, a.value.map Piece.wrapped⟩

def Head.wrapped (h : Head) : Head :=
  ⟨h.tag, h.attributes.map Attribute.wrapped, h.span.wrapped, h.startTag.wrapped⟩

mutual

/-- A node with all offsets as words. -/
def Node.wrapped : Node → Node
  | .comment span => .comment span.wrapped
  | .text piece => .text piece.wrapped
  | .element head children => .element head.wrapped (wrappedAll children)

/-- Nodes with all offsets as words. -/
def wrappedAll : List Node → List Node
  | [] => []
  | n :: ns => n.wrapped :: wrappedAll ns

end

/-- Markup to be written. -/
inductive Sketch where
  | comment (body : String)
  | text (text : String)
  | element (tag : String) (attributes : List (String × Option String)) (children : List Sketch)

namespace Sketch

/-! ### Text of markup -/

/-- An attribute: a space, the name and, if there is one, the value in quotes. -/
def renderAttribute : String × Option String → List Char
  | (name, none) => ' ' :: name.toList
  | (name, some value) => ' ' :: name.toList ++ '=' :: '"' :: value.toList ++ ['"']

def renderStartTag (tag : String) (attributes : List (String × Option String)) : List Char :=
  '<' :: tag.toList ++ attributes.flatMap renderAttribute ++ ['>']

/-- The end tag of an element; one that has no content has none. -/
def renderEndTag (tag : String) : List Char :=
  if voidTags.contains tag then [] else '<' :: '/' :: tag.toList ++ ['>']

mutual

def render : Sketch → List Char
  | comment body => "<!--".toList ++ body.toList ++ "-->".toList
  | text t => t.toList
  | element tag attributes children =>
    renderStartTag tag attributes ++ renderAll children ++ renderEndTag tag

def renderAll : List Sketch → List Char
  | [] => []
  | s :: ss => render s ++ renderAll ss

end

/-! ### Tree of markup -/

/-- An attribute that is written from the byte `n` on. -/
def placeAttribute (n : Nat) : String × Option String → Attribute
  | (name, none) => ⟨.written (n + 1) name, none⟩
  | (name, some value) =>
    let stop := n + 1 + size name.toList
    ⟨.written (n + 1) name, some (.written (stop + 2) value)⟩

def placeAttributes (n : Nat) : List (String × Option String) → List Attribute
  | [] => []
  | a :: as => placeAttribute n a :: placeAttributes (n + size (renderAttribute a)) as

/-- The head of an element whose start tag is written from the byte `n` on. -/
def placeHead (n : Nat) (tag : String) (attributes : List (String × Option String)) : Head :=
  let startTag : Span := ⟨n, n + size (renderStartTag tag attributes)⟩
  ⟨tag, placeAttributes (n + 1 + size tag.toList) attributes, startTag, startTag⟩

mutual

/-- The tree of markup that is written from the byte `n` on. -/
def place (n : Nat) : Sketch → Node
  | comment body => .comment ⟨n, n + size (render (comment body))⟩
  | text t => .text (.written n t)
  | element tag attributes children =>
    let head := placeHead n tag attributes
    let stop := n + size (render (element tag attributes children))
    .element { head with span := ⟨n, stop⟩ } (placeAll head.startTag.stop children)

def placeAll (n : Nat) : List Sketch → List Node
  | [] => []
  | s :: ss => place n s :: placeAll (n + size (render s)) ss

end

/-! ### Markup that can be written -/

/-- A lower-case letter and then lower-case letters, digits and hyphens. -/
def IsTag (tag : String) : Prop :=
  ∃ c cs, tag.toList = c :: cs ∧ ('a' ≤ c ∧ c ≤ 'z') ∧
    ∀ d ∈ cs, ('a' ≤ d ∧ d ≤ 'z') ∨ ('0' ≤ d ∧ d ≤ '9') ∨ d = '-'

theorem isTag_iff {tag : String} : IsTag tag ↔
    (tag.toList.head?.any fun c => 'a' ≤ c && c ≤ 'z') = true ∧
      (tag.toList.tail.all fun d => ('a' ≤ d && d ≤ 'z') || ('0' ≤ d && d ≤ '9') || d == '-') = true := by
  unfold IsTag
  cases tag.toList with
  | nil => simp
  | cons c cs => simp [or_assoc]

instance (tag : String) : Decidable (IsTag tag) := decidable_of_iff _ isTag_iff.symm

/-- The name is not empty and free of blanks, `>`, `/` and `=`, and the value is free of quotes. -/
structure AttributeOk (a : String × Option String) : Prop where
  nonempty : a.1 ≠ ""
  name : ∀ c ∈ a.1.toList, isAsciiBlank c = false ∧ c ≠ '>' ∧ c ≠ '/' ∧ c ≠ '='
  value : ∀ v ∈ a.2, '"' ∉ v.toList

theorem attributeOk_iff {a : String × Option String} : AttributeOk a ↔
    a.1 ≠ "" ∧ (a.1.toList.all fun c => !isAsciiBlank c && c != '>' && c != '/' && c != '=') = true ∧
      (a.2.all fun v => !v.toList.contains '"') = true := by
  constructor
  · rintro ⟨hne, hname, hvalue⟩
    refine ⟨hne, ?_, ?_⟩
    · simpa [and_assoc] using hname
    · simpa [Option.all_eq_true] using hvalue
  · rintro ⟨hne, hname, hvalue⟩
    refine ⟨hne, ?_, ?_⟩
    · simpa [and_assoc] using hname
    · simpa [Option.all_eq_true] using hvalue

instance (a : String × Option String) : Decidable (AttributeOk a) :=
  decidable_of_iff _ attributeOk_iff.symm

/-- At most one text, which is not empty and holds no `</` with the tag behind it in any case. -/
def RawContent (tag : String) (children : List Sketch) : Prop :=
  children = [] ∨ ∃ t, children = [text t] ∧ t ≠ "" ∧
    ¬ ∃ word, word <:+: t.toList ∧
      word.map lowerAscii = ('<' :: '/' :: tag.toList).map lowerAscii

def isText : Sketch → Bool
  | text _ => true
  | _ => false

mutual

def Ok : Sketch → Prop
  | comment body => ¬ "-->".toList <:+: body.toList
  | text t => t ≠ "" ∧ '<' ∉ t.toList
  | element tag attributes children => IsTag tag ∧ (∀ a ∈ attributes, AttributeOk a) ∧
      (voidTags.contains tag = true → children = []) ∧
        if rawTags.contains tag then RawContent tag children else AllOk children

/-- No text stands next to another one. -/
def AllOk : List Sketch → Prop
  | [] => True
  | s :: ss => Ok s ∧ (isText s = true → ss.head?.any isText = false) ∧ AllOk ss

end

/-! ### Attributes -/

variable {n start : Nat} {c : Char} {cs rest more : List Char} {tag : String}
  {a : String × Option String} {as : List (String × Option String)} {selfClosing : Bool}

theorem inName_iff : inName c = true ↔ isAsciiBlank c = false ∧ c ≠ '>' ∧ c ≠ '/' ∧ c ≠ '=' := by
  simp [inName, and_assoc]

theorem takeWhile_append_of_head {p : Char → Bool} (hcs : ∀ d ∈ cs, p d = true) (hc : p c = false)
    (rest : List Char) :
    (cs ++ c :: rest).takeWhile p = cs ∧ (cs ++ c :: rest).dropWhile p = c :: rest := by
  induction cs with
  | nil => simp [hc]
  | cons d cs ih =>
    obtain ⟨htake, hdrop⟩ := ih fun e he => hcs e (List.mem_cons_of_mem _ he)
    simp [hcs d (List.mem_cons_self ..), htake, hdrop]

theorem cut?_append (h : c ∉ cs) (rest : List Char) : cut? [c] (cs ++ c :: rest) = some (cs, rest) := by
  induction cs with
  | nil => simp [cut?, stripPrefix?]
  | cons d cs ih =>
    rw [List.mem_cons, not_or] at h
    simp [cut?, stripPrefix?, h.1, ih h.2]

/-- What follows an attribute in a start tag: another one, or the end of the tag. -/
def Follows (rest : List Char) : Prop :=
  (∃ more, rest = '>' :: more) ∨ ∃ c more, inName c = true ∧ rest = ' ' :: c :: more

theorem follows_attributes (has : ∀ a ∈ as, AttributeOk a) (rest : List Char) :
    Follows (as.flatMap renderAttribute ++ '>' :: rest) := by
  cases as with
  | nil => exact .inl ⟨rest, rfl⟩
  | cons a as =>
    have ha := has a (List.mem_cons_self ..)
    obtain ⟨name, value⟩ := a
    obtain ⟨c, cs, hname⟩ := List.exists_cons_of_ne_nil (mt String.toList_eq_nil_iff.1 ha.nonempty)
    have hc := inName_iff.2 (ha.name c (hname ▸ List.mem_cons_self ..))
    cases value with
    | none => exact .inr ⟨c, _, hc, by simp only [List.flatMap_cons, renderAttribute, hname]; rfl⟩
    | some value => exact .inr ⟨c, _, hc, by simp only [List.flatMap_cons, renderAttribute, hname]; rfl⟩

theorem takeWhile_append_of_follows (hcs : ∀ d ∈ cs, inName d = true) (hrest : Follows rest) :
    (cs ++ rest).takeWhile inName = cs ∧ (cs ++ rest).dropWhile inName = rest := by
  obtain ⟨more, rfl⟩ | ⟨d, more, -, rfl⟩ := hrest
  · exact takeWhile_append_of_head hcs (by decide) more
  · exact takeWhile_append_of_head hcs (by decide) (d :: more)

theorem wrapped_placeAttribute (n : Nat) (a : String × Option String) :
    (placeAttribute n a).wrapped = ⟨Piece.located (n + 1) a.1.toList,
      a.2.map fun value => Piece.located (n + 1 + size a.1.toList + 2) value.toList⟩ := by
  obtain ⟨name, _ | value⟩ := a <;> simp [placeAttribute, Attribute.wrapped, Piece.wrapped_written]

theorem attributeAt_render (ha : AttributeOk a) (hrest : Follows rest) :
    ∃ c cs, renderAttribute a ++ rest = ' ' :: c :: cs ∧ inName c = true ∧
      attributeAt (n + 1) c cs = .ok ((placeAttribute n a).wrapped, rest) := by
  obtain ⟨name, value⟩ := a
  obtain ⟨c, cs, hname⟩ := List.exists_cons_of_ne_nil (mt String.toList_eq_nil_iff.1 ha.nonempty)
  have hc : inName c = true := inName_iff.2 (ha.name c (hname ▸ List.mem_cons_self ..))
  have hcs : ∀ d ∈ cs, inName d = true := fun d hd =>
    inName_iff.2 (ha.name d (hname ▸ List.mem_cons_of_mem _ hd))
  cases value with
  | none =>
    refine ⟨c, cs ++ rest, by simp [renderAttribute, hname], hc, ?_⟩
    obtain ⟨htake, hdrop⟩ := takeWhile_append_of_follows hcs hrest
    obtain ⟨more, rfl⟩ | ⟨d, more, hd, rfl⟩ := hrest
    · simp [attributeAt, htake, hdrop, wrapped_placeAttribute, hname, isAsciiBlank]
    · obtain ⟨hblank, -, -, heq⟩ := inName_iff.1 hd
      have hdrop' : (' ' :: d :: more).dropWhile isAsciiBlank = d :: more := by
        simp [show isAsciiBlank ' ' = true by decide, hblank]
      simp [attributeAt, htake, hdrop, hdrop', wrapped_placeAttribute, hname, heq]
  | some value =>
    have hv := ha.value value rfl
    refine ⟨c, cs ++ '=' :: '"' :: (value.toList ++ '"' :: rest), by simp [renderAttribute, hname],
      hc, ?_⟩
    obtain ⟨htake, hdrop⟩ := takeWhile_append_of_head hcs (c := '=') (by decide)
      ('"' :: (value.toList ++ '"' :: rest))
    have hequals : ('=' :: '"' :: (value.toList ++ '"' :: rest)).dropWhile isAsciiBlank =
        '=' :: '"' :: (value.toList ++ '"' :: rest) := by simp [show isAsciiBlank '=' = false by decide]
    have hquote : ('"' :: (value.toList ++ '"' :: rest)).dropWhile isAsciiBlank =
        '"' :: (value.toList ++ '"' :: rest) := by simp [show isAsciiBlank '"' = false by decide]
    have hsign : '='.utf8Size = 1 := by decide
    have hoffset : n + 1 + (size (c :: (cs ++ '=' :: '"' :: (value.toList ++ '"' :: rest))) -
        size ('"' :: (value.toList ++ '"' :: rest))) + 1 = n + 1 + size (c :: cs) + 2 := by
      simp only [size_append, size_cons, hsign]
      omega
    simp only [attributeAt, htake, hdrop, hequals, hquote, Markup.value, quotedValue, cut?_append hv, hoffset]
    simp [bind, Except.bind, pure, Except.pure, wrapped_placeAttribute, hname]

theorem attributes_blank (h : isAsciiBlank c = true) (cs : List Char) :
    attributes tag start n (c :: cs) = attributes tag start (n + c.utf8Size) cs := by
  have hgt : c ≠ '>' := by rintro rfl; revert h; decide
  have hslash : c ≠ '/' := by rintro rfl; revert h; decide
  rw [attributes]
  · simp [h]
  · exact fun h => hgt h
  · exact fun _ h => absurd h hslash

theorem attributes_cons {first : Attribute} {others : List Attribute} (hc : inName c = true)
    (ha : attributeAt n c cs = .ok (first, more))
    (hmore : attributes tag start (n + (size (c :: cs) - size more)) more =
      .ok (others, selfClosing, rest)) :
    attributes tag start n (c :: cs) = .ok (first :: others, selfClosing, rest) := by
  obtain ⟨hblank, hgt, hslash, heq⟩ := inName_iff.1 hc
  rw [attributes]
  · rw [if_neg (by simp [hblank, hslash, heq])]
    split
    · next h => rw [ha] at h; cases h
    · next h =>
      rw [ha] at h
      obtain ⟨rfl, rfl⟩ := Prod.mk.inj (Except.ok.inj h)
      simp only [hmore]
      rfl
  · exact fun h => hgt h
  · exact fun _ h => absurd h hslash

/-- The attributes of a start tag are read up to its end. -/
theorem attributes_render (has : ∀ a ∈ as, AttributeOk a) (rest : List Char) :
    attributes tag start n (as.flatMap renderAttribute ++ '>' :: rest) =
      .ok ((placeAttributes n as).map Attribute.wrapped, false, rest) := by
  induction as generalizing n with
  | nil => rw [List.flatMap_nil, List.nil_append, attributes]; rfl
  | cons a as ih =>
    have has' : ∀ a ∈ as, AttributeOk a := fun a ha => has a (List.mem_cons_of_mem _ ha)
    have hfollows := follows_attributes has' rest
    obtain ⟨c, cs, htext, hc, ha⟩ :=
      attributeAt_render (n := n) (has a (List.mem_cons_self ..)) hfollows
    have hspace : ' '.utf8Size = 1 := by decide
    rw [List.flatMap_cons, List.append_assoc, htext, attributes_blank (by decide), hspace]
    have hnext : n + 1 + (size (c :: cs) - size (as.flatMap renderAttribute ++ '>' :: rest)) =
        n + size (renderAttribute a) := by
      have hsize := congrArg size htext
      rw [size_append (renderAttribute a), size_cons ' ', hspace] at hsize
      have hpos : 0 < size (renderAttribute a) := by
        rcases a with ⟨name, _ | value⟩ <;>
          exact Nat.lt_of_lt_of_le (utf8Size_pos ' ') (Nat.le_add_right ..)
      omega
    exact attributes_cons hc ha (hnext ▸ ih has')

end Sketch

end Relabel.Markup
