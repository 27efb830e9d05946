import Relabel.Proofs.Fragment.Syntax
import Relabel.Proofs.Script.Literals

/-!
# Texts of phrases

Every phrase is written as its tokens: `Phrase.written`.
-/

namespace Relabel.Fragment
open Script
variable {c : Char} {cs rest : List Char} {w : String} {ok : List Char → Prop} {a : Item}

/-! ### Names -/

theorem lexeme?_isName (h : isName w = true) {b : Nat} (hb : (w.toList ++ rest).length ≤ b)
    (hrest : EndsName rest) :
    ∃ size, lexeme? b (w.toList ++ rest) = some ⟨.name w false, size, rest⟩ := by
  obtain ⟨c, cs, hw, hstart, hall⟩ := chars_of_isName h
  have hof : w = .ofList (c :: cs) := by rw [← hw, String.ofList_toList]
  rw [hw] at hb ⊢
  rw [hof]
  refine lexeme?_name hstart hall hrest ?_
  rw [List.length_append] at hb
  omega

theorem spells_name (h : isName w = true) : Spells w.toList [.name w false] EndsName := by
  obtain ⟨c, cs, hw, -, hall⟩ := chars_of_isName h
  rw [hw]
  refine spells_token (isInk_of_continuesName (hall c (List.mem_cons_self ..))) (by simp)
    fun b rest hb hrest => ?_
  rw [← hw] at hb ⊢
  exact lexeme?_isName h hb hrest

/-! ### Paths -/

/-- A text in front of which a value ends. -/
def Goes (rest : List Char) : Prop :=
  ∀ c ∈ rest.head?, c ∈ [',', ')', ']', ';', ' ', '\n', '.', '[', '(']

theorem Goes.endsName (h : Goes rest) : EndsName rest := by
  rintro c cs rfl
  have hc := h c rfl
  simp only [List.mem_cons, List.not_mem_nil, or_false] at hc
  rcases hc with rfl | rfl | rfl | rfl | rfl | rfl | rfl | rfl | rfl <;> decide

theorem goes_of_stops (h : Stops rest) : Goes rest := by
  intro c hc
  have := h c hc
  simp only [List.mem_cons, List.not_mem_nil, or_false] at this ⊢
  tauto

/-- Names behind points. -/
def memberText (ns : List String) : List Char :=
  ns.flatMap fun n => '.' :: n.toList

theorem noDigit_of_isName (h : isName w = true) (rest : List Char) : NoDigit (w.toList ++ rest) := by
  obtain ⟨c, cs, hw, hstart, hall⟩ := chars_of_isName h
  have hdot : c ≠ '.' := ne_of_continuesName (hall c (List.mem_cons_self ..)) (by decide)
  exact ⟨c, cs ++ rest, by rw [hw, List.cons_append], isDigit_of_startsName hstart, hdot⟩

theorem spells_member (h : isName w = true) :
    Spells ('.' :: w.toList) [.mark ".", .name w false] EndsName :=
  spells_dot.append (spells_name h) fun rest _ => noDigit_of_isName h rest

theorem endsName_point (rest : List Char) : EndsName ('.' :: rest) := by
  rintro c cs hcs
  injection hcs with hc _
  subst hc
  decide

theorem spells_members {ns : List String} (h : ∀ n ∈ ns, isName n = true) :
    Spells (memberText ns) (memberTokens ns) EndsName := by
  induction ns with
  | nil => exact spells_nil
  | cons n ns ih =>
    refine (spells_member (h n (List.mem_cons_self ..))).append
      (ih fun x hx => h x (List.mem_cons_of_mem n hx)) fun rest hrest => ?_
    cases ns with
    | nil => exact hrest
    | cons x ns => exact endsName_point _

theorem intercalate_eq_flatMap (xs : List (List Char)) (x : List Char) :
    List.intercalate ['.'] (x :: xs) = x ++ xs.flatMap ('.' :: ·) := by
  induction xs generalizing x with
  | nil => simp [List.intercalate]
  | cons y ys ih =>
    rw [List.intercalate_cons_cons, ih]
    simp

/-- A dotted path is its parts. -/
theorem toList_of_segments {path n : String} {ns : List String} (h : segments path = n :: ns) :
    path.toList = n.toList ++ memberText ns := by
  have hparts : path.toList.splitOn '.' = (n :: ns).map String.toList := by
    rw [← h, segments, List.map_map]
    exact (List.map_id _).symm.trans (List.map_congr_left fun cs _ => (String.toList_ofList).symm)
  have hsplit : List.intercalate ['.'] (path.toList.splitOn '.') = path.toList :=
    List.intercalate_splitOn '.'
  rw [← hsplit, hparts, List.map_cons, intercalate_eq_flatMap, List.flatMap_map]
  rfl

theorem spells_path {n : String} {ns : List String} (h : ∀ x ∈ n :: ns, isName x = true) :
    Spells (n.toList ++ memberText ns) (.name n false :: memberTokens ns) EndsName := by
  refine (spells_name (h n (List.mem_cons_self ..))).append
    (spells_members fun x hx => h x (List.mem_cons_of_mem n hx)) fun rest hrest => ?_
  cases ns with
  | nil => exact hrest
  | cons x ns => exact endsName_point _

/-! ### Literals -/

theorem exists_lexeme_of_plainLiteral (h : plainLiteral? cs = some a) :
    ∃ l, lexeme? cs.length cs = some l ∧ isLiteralToken l.token = true ∧ l.rest = [] ∧
      a.tokens = [l.token] := by
  rw [plainLiteral?] at h
  split at h
  · next hl =>
    injection h with h
    subst h
    exact ⟨_, hl, rfl, rfl, rfl⟩
  · next hl =>
    injection h with h
    subst h
    exact ⟨_, hl, rfl, rfl, rfl⟩
  · cases h

theorem spells_plainLiteral (h : plainLiteral? cs = some a) : Spells cs a.tokens Stops := by
  obtain ⟨l, hl, htoken, hend, htokens⟩ := exists_lexeme_of_plainLiteral h
  obtain ⟨c, ds, rfl, hink, -⟩ := literal_head hl htoken
  rw [htokens]
  refine spells_token hink ?_ fun b rest hb hrest => ⟨l.size, ?_⟩
  · intro hplus
    rw [hplus] at htoken
    cases htoken
  · rw [List.length_append] at hb
    rw [lexeme?_append hl htoken hend (by omega) hrest, Lexeme.before, hend, List.nil_append]

theorem beginsLiteral_of_plainLiteral (h : plainLiteral? cs = some a) (rest : List Char) :
    BeginsLiteral (cs ++ rest) := by
  obtain ⟨l, hl, htoken, -, -⟩ := exists_lexeme_of_plainLiteral h
  obtain ⟨c, ds, rfl, -, hne⟩ := literal_head hl htoken
  exact ⟨c, ds ++ rest, rfl, hne⟩

theorem spells_literal {t : String} (h : literal? t = some a) : Spells t.toList a.tokens Stops := by
  rw [literal?] at h
  split at h
  · next cs ht =>
    obtain ⟨x, hx, rfl⟩ := Option.map_eq_some_iff.1 h
    rw [ht]
    exact spells_plus.append (spells_plainLiteral hx) fun rest _ => beginsLiteral_of_plainLiteral hx rest
  · next cs ht =>
    obtain ⟨x, hx, rfl⟩ := Option.map_eq_some_iff.1 h
    rw [ht]
    exact spells_minus.append (spells_plainLiteral hx) fun rest _ => beginsLiteral_of_plainLiteral hx rest
  · exact spells_plainLiteral h

theorem spells_whole (k : Nat) : Spells (toString k).toList [.number (wholeDouble k)] Stops := by
  have htext : (toString k).toList = Nat.toDigits 10 k := Nat.toList_repr
  have hempty : Stops [] := fun c hc => by cases hc
  obtain ⟨size, hsize⟩ := lexeme?_toDigits k hempty 0
  rw [List.append_nil] at hsize
  obtain ⟨c, cs, hcs, hink, -⟩ := literal_head hsize rfl
  rw [htext, hcs]
  refine spells_token hink (by simp) fun b rest _ hrest => ?_
  rw [← hcs]
  exact lexeme?_toDigits k hrest b

/-! ### Comments -/

/-- A text without the mark that closes a comment. -/
def NoClose (cs : List Char) : Prop :=
  ∀ a b, cs ≠ a ++ '*' :: '/' :: b

theorem NoClose.append {ds : List Char} (h : NoClose cs) (h' : NoClose ds)
    (hjoin : cs.getLast? ≠ some '*' ∨ ds.head? ≠ some '/') : NoClose (cs ++ ds) := by
  intro a b hab
  rcases List.append_eq_append_iff.1 hab with ⟨x, rfl, hx⟩ | ⟨x, rfl, hx⟩
  · exact h' x b hx
  · rcases x with _ | ⟨y, _ | ⟨z, x⟩⟩
    · exact h' [] b hx.symm
    · injection hx with hy hds
      subst hy
      rcases hjoin with hjoin | hjoin
      · exact hjoin (by simp)
      · exact hjoin (by rw [show ds = '/' :: b from hds.symm]; rfl)
    · injection hx with hy hx
      injection hx with hz hx
      subst hy
      subst hz
      exact h a x rfl

theorem noClose_of_not_mem (h : '*' ∉ cs) : NoClose cs := by
  rintro a b rfl
  exact h (by simp)

theorem noClose_star : NoClose ['*'] := by
  intro a b h
  have hlength := congrArg List.length h
  simp at hlength
  omega

/-- What stands in a comment between its first star and its last. -/
theorem spells_comment_inside {ds : List Char} (h : NoClose ds) (hhead : ds.head? ≠ some '/')
    (hlast : ds.getLast? ≠ some '*') : Spells ("/**".toList ++ ds ++ "*/".toList) [] ok := by
  have hall : NoClose (['*'] ++ (ds ++ ['*'])) := by
    refine noClose_star.append (h.append noClose_star (.inl hlast)) (.inr ?_)
    cases ds with
    | nil => simp
    | cons d ds => simpa using hhead
  have hcomment := @spells_comment (['*'] ++ ds) ok (by rw [List.append_assoc]; exact hall)
  simpa using hcomment

theorem spells_note {text : String} (h : InComment text) :
    Spells ("/** " ++ text ++ " */").toList [] ok := by
  have hinside : NoClose ([' '] ++ (text.toList ++ [' '])) := by
    have hblank : NoClose [' '] := noClose_of_not_mem (by simp)
    exact hblank.append (NoClose.append h hblank (.inr (by simp))) (.inl (by simp))
  have hspells := @spells_comment_inside ok _ hinside (by simp)
    (by rw [List.getLast?_append, List.getLast?_append]; simp)
  simpa using hspells

/-- A comment before a value tells its type. -/
theorem spells_typeComment {type : String} (h : InComment type) :
    Spells ("/** @type \x7b!" ++ type ++ "\x7d */ (").toList [.mark "("] ok := by
  have hinside : NoClose (" @type \x7b!".toList ++ (type.toList ++ "\x7d ".toList)) := by
    have hopen : NoClose " @type \x7b!".toList := noClose_of_not_mem (by decide)
    have hclose : NoClose "\x7d ".toList := noClose_of_not_mem (by decide)
    exact hopen.append (NoClose.append h hclose (.inr (by decide))) (.inl (by decide))
  have hspells := @spells_comment_inside (fun _ => True) _ hinside (by simp)
    (by rw [List.getLast?_append, List.getLast?_append]; simp)
  have hparen := (@spells_space fun _ => True).append (@spells_mark ok '(' "(" (by decide)) fun _ _ => trivial
  simpa using hspells.append hparen fun _ _ => trivial

/-! ### By the structure of phrases -/

/-- A phrase is written as its tokens; what a property may follow may stand before more. -/
structure Phrase.Written (p : Phrase) : Prop where
  stops : Spells p.text.toList p.item.tokens Stops
  goes : p.isAccess = true → Spells p.text.toList p.item.tokens Goes

theorem Phrase.Written.of_goes {p : Phrase} (h : Spells p.text.toList p.item.tokens Goes) :
    p.Written :=
  ⟨h.weaken fun _ => goes_of_stops, fun _ => h⟩

theorem goes_cons (hc : c ∈ [',', ')', ']', ';', ' ', '\n', '.', '[', '(']) : Goes (c :: cs) := by
  intro d hd
  rwa [← Option.some.inj hd]

theorem stops_cons (hc : c ∈ [',', ')', ']', ';', ' ', '\n']) : Stops (c :: cs) := by
  intro d hd
  rwa [← Option.some.inj hd]

mutual

theorem Phrase.written : ∀ {p : Phrase}, p.Ok → p.Written
  | .name path, h => by
    obtain ⟨n, ns, hpath, hn, hns⟩ := h
    refine .of_goes ?_
    rw [Phrase.item, hpath, Phrase.text, toList_of_segments hpath]
    refine (spells_path fun x hx => ?_).weaken fun _ => Goes.endsName
    rcases List.mem_cons.1 hx with rfl | hx
    · exact isName_of_isIdentifier hn
    · exact hns x hx
  | .this path, h => by
    refine .of_goes ?_
    obtain ⟨n, ns, hpath⟩ := List.exists_cons_of_ne_nil (segments_ne_nil path)
    have htext : (Phrase.this path).text.toList = "this".toList ++ memberText (segments path) := by
      rw [Phrase.text, String.toList_append, toList_of_segments hpath, hpath]
      simp [memberText]
    rw [htext]
    refine (@spells_path "this" (segments path) fun x hx => ?_).weaken fun _ => Goes.endsName
    rcases List.mem_cons.1 hx with rfl | hx
    · decide
    · exact h x hx
  | .literal t, h => by
    -- a literal is written whole, but no access can follow a number
    obtain ⟨a, ha⟩ := Option.isSome_iff_exists.1 h
    refine ⟨?_, fun h => absurd h (by simp [Phrase.isAccess])⟩
    rw [Phrase.item, ha]
    exact spells_literal ha
  | .quoted t, _ => .of_goes (spells_quoted t)
  | .number n, _ => ⟨spells_whole n, fun h => absurd h (by simp [Phrase.isAccess])⟩
  | .member object property, ⟨haccess, hobject, hproperty⟩ => by
    refine .of_goes ?_
    have h := (object.written hobject).goes haccess
    obtain ⟨n, ns, hpath⟩ := List.exists_cons_of_ne_nil (segments_ne_nil property)
    have htext : (Phrase.member object property).text.toList =
        object.text.toList ++ memberText (segments property) := by
      rw [Phrase.text, String.toList_append, String.toList_append, toList_of_segments hpath, hpath]
      simp [memberText]
    have hmembers := (spells_members hproperty).weaken fun _ => Goes.endsName
    rw [htext, Phrase.item]
    refine h.append hmembers fun rest _ => ?_
    rw [hpath, memberText, List.flatMap_cons, List.cons_append]
    exact goes_cons (by simp)
  | .element object index, ⟨haccess, hobject, hindex⟩ => by
    refine .of_goes ?_
    have h := (object.written hobject).goes haccess
    have hindex := (index.written hindex).stops
    have hclose := hindex.append (@spells_mark Goes ']' "]" (by decide)) fun rest _ => stops_cons (by simp)
    have hbrackets := (@spells_mark (fun _ => True) '[' "[" (by decide)).append hclose fun _ _ => trivial
    have := h.append hbrackets fun rest _ => goes_cons (by simp)
    simpa [Phrase.text, Phrase.item] using this
  | .call callee args, ⟨haccess, hcallee, hargs⟩ => by
    refine .of_goes ?_
    have h := (callee.written hcallee).goes haccess
    have hclose := (written_of_allOk hargs).append (@spells_mark Goes ')' ")" (by decide))
      fun rest _ => stops_cons (by simp)
    have hparens := (@spells_mark (fun _ => True) '(' "(" (by decide)).append hclose fun _ _ => trivial
    have := h.append hparens fun rest _ => goes_cons (by simp)
    simpa [Phrase.text, Phrase.item] using this
  | .create constructor args, ⟨hconstructor, hargs⟩ => by
    refine .of_goes ?_
    have hclose := (written_of_allOk hargs).append (@spells_mark Goes ')' ")" (by decide))
      fun rest _ => stops_cons (by simp)
    have hparens := (@spells_mark (fun _ => True) '(' "(" (by decide)).append hclose fun _ _ => trivial
    have hname := (spells_name (isName_of_isIdentifier hconstructor)).append hparens
      fun rest _ => (goes_cons (by simp)).endsName
    have hspace := (@spells_space fun _ => True).append hname fun _ _ => trivial
    have := (@spells_name "new" (by decide)).append hspace
      fun rest _ => Goes.endsName (goes_cons (by simp))
    simpa [Phrase.text, Phrase.item] using this
  | .typed type value, ⟨htype, hvalue⟩ => by
    refine .of_goes ?_
    have hclose := (value.written hvalue).stops.append (@spells_mark Goes ')' ")" (by decide))
      fun rest _ => stops_cons (by simp)
    have := (@spells_typeComment (fun _ => True) type htype).append hclose fun _ _ => trivial
    simpa [Phrase.text, Phrase.item] using this

theorem written_of_allOk : ∀ {ps : List Phrase}, AllOk ps →
    Spells (joined ", " (textsOf ps)).toList (commaTokens (itemsOf ps)) Stops
  | [], _ => spells_nil
  | [p], ⟨hp, _⟩ => by
    have := (p.written hp).stops
    simpa [textsOf, joined, itemsOf, commaTokens]
  | p :: q :: ps, ⟨hp, hps⟩ => by
    have hrest := (@spells_space fun _ => True).append (written_of_allOk hps) fun _ _ => trivial
    have hcomma := (@spells_mark (fun _ => True) ',' "," (by decide)).append hrest fun _ _ => trivial
    have := (p.written hp).stops.append hcomma fun rest _ => stops_cons (by simp)
    simpa [textsOf, joined, itemsOf, commaTokens] using this

end

end Relabel.Fragment
