import Relabel.Proofs.Fragment.Values

/-!
# Reading phrases
-/

namespace Relabel.Fragment
open Script Reading
variable {c d : Cursor} {w m : String} {awaits : Bool} {ctx : Context} {rest : List Token} {a : Item}

theorem Begins.append {us : List Token} {t : Tree} (h : Begins awaits a) (hm : m ∈ [".", "[", "(", "=", "<", "++"]) :
    Begins awaits ⟨a.tokens ++ .mark m :: us, t⟩ := by
  obtain ⟨x, ts, hts, hopens, hnext⟩ := h
  refine ⟨x, ts ++ .mark m :: us, by simp [hts], hopens, fun w hw => ?_⟩
  rcases hnext w hw with h | rfl | ⟨m', ts', rfl, hm'⟩
  · exact .inl h
  · exact .inr (.inr ⟨m, us, rfl, hm⟩)
  · exact .inr (.inr ⟨m', ts' ++ .mark m :: us, rfl, hm'⟩)

theorem begins_of_ne_name {t : Token} {ts : List Token} {tree : Tree} (h : Opens awaits t)
    (ht : ∀ w, t ≠ .name w false) : Begins awaits ⟨t :: ts, tree⟩ :=
  ⟨t, ts, rfl, h, fun w hw => absurd hw (ht w)⟩

theorem begins_memberTokens {t : Tree} {ns : List String} (hw : Word w)
    (hawait : awaits = true → w ≠ "await") :
    Begins awaits ⟨.name w false :: memberTokens ns, t⟩ := by
  refine ⟨_, _, rfl, .inl ⟨w, rfl, hw, hawait⟩, fun _ _ => .inr ?_⟩
  cases ns with
  | nil => exact .inl rfl
  | cons n ns => exact .inr ⟨".", _, rfl, by decide⟩

theorem Accesses.members (h : Accesses awaits a) (ns : List String) :
    Accesses awaits ⟨a.tokens ++ memberTokens ns, memberTree a.tree ns⟩ := by
  induction ns generalizing a with
  | nil =>
    rw [memberTokens, List.append_nil]
    exact h
  | cons n ns ih =>
    have := ih (h.member n)
    rw [List.append_assoc] at this
    exact this

theorem Accesses.signed {sign : String} (h : Accesses awaits a) (hb : Begins awaits a)
    (hsign : sign ∈ ["+", "-"]) : Assigns awaits (signedItem sign a) := by
  intro n ctx m rest hctx hn hm
  simp only [signedItem, List.length_cons] at hn
  obtain ⟨r, rfl⟩ : ∃ r, n = r + 4 := ⟨n - 4, by omega⟩
  have hgoes : goesOn m = false ∧ m ≠ "++" ∧ m ≠ "--" := by
    simp only [List.mem_cons, List.not_mem_nil, or_false] at hm
    rcases hm with rfl | rfl | rfl | rfl <;> decide
  have hbegins : Begins awaits (signedItem sign a) := by
    refine begins_of_ne_name (.inr (.inr (.inr ?_))) (by simp)
    simp only [List.mem_cons, List.not_mem_nil, or_false] at hsign
    rcases hsign with rfl | rfl <;> simp
  have hoperand := @Accesses.unary awaits ctx rest a m r h hb hctx (by omega) hgoes.1 hgoes.2.1 hgoes.2.2
  have hunary : Reads (rules (r + 2) .unary ctx) (signedItem sign a).tokens (.mark m :: rest)
      (signedItem sign a).tree := by
    intro c hc hlen
    rw [signedItem, List.length_cons] at hlen
    obtain ⟨t, d, hrun, hbare, hd, hbound⟩ := hoperand c.next hc.next (by rw [bound_next]; omega)
    refine ⟨.node (.unary sign) ⟨c.start, d.last⟩ [t], d, ?_, ?_, hd, by rw [hbound, bound_next]⟩
    · have hmem : sign ∈ ["+", "-", "!", "~"] := by
        simp only [List.mem_cons] at hsign ⊢
        tauto
      show (Script.unary (rules (r + 1)) ctx).run c = _
      simp only [List.mem_cons, List.not_mem_nil, or_false] at hmem
      simp [Script.unary, hc.token, hmem, hrun]
    · simp [Tree.bare, Tree.bares, hbare, signedItem, branch]
  have hm' : m ∈ [",", ")", "]", ";", "="] := by
    simp only [List.mem_cons] at hm ⊢
    tauto
  exact reads_assignment hctx hbegins (reads_operation hbegins hunary (level?_closer hm')) hm

/-- A number or a string is one token. -/
theorem accesses_plainLiteral {cs : List Char} (h : plainLiteral? cs = some a) :
    Begins awaits a ∧ Accesses awaits a ∧ takesRest a.tree = false := by
  rw [plainLiteral?] at h
  split at h
  · injection h with h
    subst h
    exact ⟨begins_of_ne_name (.inr (.inr (.inl ⟨_, rfl⟩))) (by simp), accesses_number _, rfl⟩
  · injection h with h
    subst h
    exact ⟨begins_of_ne_name (.inr (.inl ⟨_, rfl⟩)) (by simp), accesses_string _, rfl⟩
  · cases h

theorem assigns_literal {t : String} (h : literal? t = some a) :
    Begins awaits a ∧ Assigns awaits a ∧ takesRest a.tree = false := by
  have hsigned : ∀ sign b, sign ∈ ["+", "-"] → Begins awaits b → Accesses awaits b →
      Begins awaits (signedItem sign b) ∧ Assigns awaits (signedItem sign b) := by
    intro sign b hsign hb hacc
    refine ⟨begins_of_ne_name (.inr (.inr (.inr ?_))) (by simp), hacc.signed hb hsign⟩
    simp only [List.mem_cons, List.not_mem_nil, or_false] at hsign
    rcases hsign with rfl | rfl <;> simp
  rw [literal?] at h
  split at h
  · obtain ⟨b, hb, rfl⟩ := Option.map_eq_some_iff.1 h
    obtain ⟨hbegins, hacc, -⟩ := accesses_plainLiteral hb
    exact ⟨(hsigned "+" b (by decide) hbegins hacc).1, (hsigned "+" b (by decide) hbegins hacc).2, rfl⟩
  · obtain ⟨b, hb, rfl⟩ := Option.map_eq_some_iff.1 h
    obtain ⟨hbegins, hacc, -⟩ := accesses_plainLiteral hb
    exact ⟨(hsigned "-" b (by decide) hbegins hacc).1, (hsigned "-" b (by decide) hbegins hacc).2, rfl⟩
  · obtain ⟨hbegins, hacc, hrest⟩ := accesses_plainLiteral h
    exact ⟨hbegins, hacc.assigns hbegins, hrest⟩

/-! ### By the structure of phrases -/

theorem takesRest_memberTree {t : Tree} (h : takesRest t = false) (ns : List String) :
    takesRest (memberTree t ns) = false := by
  induction ns generalizing t with
  | nil => exact h
  | cons n ns ih => exact ih rfl

/-- A phrase begins neither with `new` nor with a function. -/
def IsPlain (a : Item) : Prop :=
  ∀ w, a.tokens.head? = some (.name w false) → w ≠ "new" ∧ w ≠ "function"

theorem IsPlain.append {us : List Token} {t : Tree} (h : IsPlain a) (hb : Begins awaits a) :
    IsPlain ⟨a.tokens ++ us, t⟩ := by
  obtain ⟨x, ts, hts, -⟩ := hb
  intro w hw
  refine h w ?_
  rw [hts] at hw ⊢
  exact hw

theorem isPlain_of_ne_name {t : Token} {ts : List Token} {tree : Tree} (ht : ∀ w, t ≠ .name w false) :
    IsPlain ⟨t :: ts, tree⟩ :=
  fun w hw => absurd (Option.some.inj hw) (ht w)

theorem isPlain_name {ts : List Token} {tree : Tree} (hnew : w ≠ "new") (hfunction : w ≠ "function") :
    IsPlain ⟨.name w false :: ts, tree⟩ := by
  intro x hx
  injection hx with hx
  injection hx with hx
  rw [← hx]
  exact ⟨hnew, hfunction⟩

/-- What is read of a phrase: it begins like one, and it is an expression; a phrase that a property
may follow is a value too, and may begin a statement. -/
structure Phrase.Readable (p : Phrase) : Prop where
  begins : Begins false p.item
  assigns : Assigns false p.item
  settled : takesRest p.item.tree = false
  accesses : p.isAccess = true → Accesses false p.item
  plain : p.isAccess = true → IsPlain p.item

theorem Phrase.Readable.of_accesses {p : Phrase} (hb : Begins false p.item) (h : Accesses false p.item)
    (hrest : takesRest p.item.tree = false) (hplain : p.isAccess = true → IsPlain p.item) :
    p.Readable :=
  ⟨hb, h.assigns hb, hrest, fun _ => h, hplain⟩

mutual

theorem Phrase.readable : ∀ {p : Phrase}, p.Ok → p.Readable
  | .name path, h => by
    obtain ⟨n, ns, hpath, hn, -⟩ := h
    have hitem : (Phrase.name path).item = pathItem (n :: ns) := by rw [Phrase.item, hpath]
    refine .of_accesses ?_ ?_ ?_ fun _ => ?_ <;> rw [hitem]
    · exact begins_memberTokens (.inl hn) (names_of_isIdentifier hn).2
    · exact (accesses_variable (names_of_isIdentifier hn)).members ns
    · exact takesRest_memberTree rfl ns
    · exact isPlain_name ((names_of_isIdentifier hn).ne (by decide)) ((names_of_isIdentifier hn).ne (by decide))
  | .this path, _ =>
    .of_accesses (begins_memberTokens (by decide) (by decide)) (accesses_this.members _)
      (takesRest_memberTree rfl _) fun _ => isPlain_name (by decide) (by decide)
  | .literal t, h => by
    obtain ⟨a, ha⟩ := Option.isSome_iff_exists.1 h
    have hitem : (Phrase.literal t).item = a := by rw [Phrase.item, ha, Option.getD_some]
    obtain ⟨hb, hassigns, hrest⟩ := assigns_literal ha
    have hnot : (Phrase.literal t).isAccess ≠ true := by simp [Phrase.isAccess]
    refine ⟨?_, ?_, ?_, fun h => absurd h hnot, fun h => absurd h hnot⟩ <;> rw [hitem]
    · exact hb
    · exact hassigns
    · exact hrest
  | .quoted t, _ =>
    .of_accesses (begins_of_ne_name (.inr (.inl ⟨t, rfl⟩)) (by simp)) (accesses_string t) rfl
      fun _ => isPlain_of_ne_name (by simp)
  | .number n, _ =>
    .of_accesses (begins_of_ne_name (.inr (.inr (.inl ⟨_, rfl⟩))) (by simp)) (accesses_number _) rfl
      fun _ => isPlain_of_ne_name (by simp)
  | .member object property, ⟨haccess, hobject, _⟩ => by
    have h := object.readable hobject
    refine .of_accesses ?_ ((h.accesses haccess).members _) (takesRest_memberTree h.settled _)
      fun _ => (h.plain haccess).append h.begins
    obtain ⟨n, ns, hpath⟩ := List.exists_cons_of_ne_nil (segments_ne_nil property)
    rw [Phrase.item, hpath]
    exact h.begins.append (by decide)
  | .element object index, ⟨haccess, hobject, hindex⟩ => by
    have h := object.readable hobject
    refine .of_accesses ?_ ((h.accesses haccess).element (index.readable hindex).assigns) rfl
      fun _ => ?_ <;> rw [Phrase.item, List.append_assoc]
    · exact h.begins.append (by decide)
    · exact (h.plain haccess).append h.begins
  | .call callee args, ⟨haccess, hcallee, hargs⟩ => by
    have h := callee.readable hcallee
    refine .of_accesses ?_ ((h.accesses haccess).call (readable_of_allOk hargs)) rfl
      fun _ => ?_ <;> rw [Phrase.item, List.append_assoc]
    · exact h.begins.append (by decide)
    · exact (h.plain haccess).append h.begins
  | .create constructor args, ⟨hconstructor, hargs⟩ =>
    .of_accesses ⟨_, _, rfl, .inl ⟨"new", rfl, by decide, by decide⟩, fun w hw => .inl (by cases hw; rfl)⟩
      (accesses_create (names_of_isIdentifier hconstructor) (readable_of_allOk hargs)) rfl
      fun h => absurd h (by simp [Phrase.isAccess])
  | .typed type value, ⟨_, hvalue⟩ => by
    have h := value.readable hvalue
    refine .of_accesses ?_ (h.assigns.paren h.begins h.settled) rfl
      fun _ => isPlain_of_ne_name (by simp)
    exact begins_of_ne_name (.inr (.inr (.inr (by simp)))) (by simp)

theorem readable_of_allOk : ∀ {ps : List Phrase}, AllOk ps → ∀ a ∈ itemsOf ps, Begins false a ∧ Assigns false a
  | [], _, a, ha => by
    rw [itemsOf] at ha
    cases ha
  | p :: ps, ⟨hp, hps⟩, a, ha => by
    rw [itemsOf] at ha
    rcases List.mem_cons.1 ha with rfl | ha
    · exact ⟨(p.readable hp).begins, (p.readable hp).assigns⟩
    · exact readable_of_allOk hps a ha

end

/-! ### Declarations -/

/-- A phrase does not begin as the declaration of a pattern does. -/
def DeclaresNothing (a : Item) : Prop :=
  ∀ ts, a.tokens ≠ .name "let" false :: .mark "[" :: ts

theorem DeclaresNothing.append {us : List Token} {t : Tree} (h : DeclaresNothing a) (hb : Begins awaits a)
    (hm : m ≠ "[" ∨ a.tokens ≠ [.name "let" false]) : DeclaresNothing ⟨a.tokens ++ .mark m :: us, t⟩ := by
  obtain ⟨x, ts, hts, -⟩ := hb
  intro rest hrest
  rw [hts] at hrest
  obtain ⟨rfl, htail⟩ := List.cons.inj hrest
  cases ts with
  | nil =>
    have hmark := Token.mark.inj (List.cons.inj htail).1
    exact hm.elim (fun hm => hm hmark) fun hm => hm hts
  | cons y ts =>
    obtain rfl := (List.cons.inj htail).1
    exact h ts hts

theorem declaresNothing_of_ne {t : Token} {ts : List Token} {tree : Tree} (ht : t ≠ .name "let" false) :
    DeclaresNothing ⟨t :: ts, tree⟩ :=
  fun _ h => ht (List.cons.inj h).1

theorem declaresNothing_memberTokens {ns : List String} {t : Tree} :
    DeclaresNothing ⟨.name w false :: memberTokens ns, t⟩ := by
  intro ts h
  cases ns with
  | nil => exact absurd (List.cons.inj h).2 (by simp [memberTokens])
  | cons n ns => exact absurd (List.cons.inj h).2 (by simp [memberTokens])

theorem eq_of_segments_eq {path : String} (h : segments path = [w]) : path = w := by
  obtain ⟨cs, hcs, rfl⟩ := List.map_eq_singleton_iff.1 h
  have hpath : List.intercalate ['.'] (path.toList.splitOn '.') = path.toList := List.intercalate_splitOn '.'
  rw [hcs, List.intercalate_singleton] at hpath
  rw [hpath, String.ofList_toList]

/-- A phrase with one token is the variable of this name. -/
theorem tokens_ne_let {p : Phrase} (h : p.Ok) (haccess : p.isAccess = true) (hlet : p.isLet = false) :
    p.item.tokens ≠ [.name "let" false] := by
  intro htokens
  cases p with
  | name path =>
    obtain ⟨n, ns, hpath, -⟩ := h
    rw [Phrase.item, hpath, pathItem] at htokens
    obtain ⟨hn, hns⟩ := List.cons.inj htokens
    obtain rfl : n = "let" := by injection hn
    cases ns with
    | nil => exact absurd (eq_of_segments_eq hpath) (by simpa [Phrase.isLet] using hlet)
    | cons => simp [memberTokens] at hns
  | this path => simp [Phrase.item, thisItem] at htokens
  | member object property =>
    obtain ⟨n, ns, hpath⟩ := List.exists_cons_of_ne_nil (segments_ne_nil property)
    have hlength := congrArg List.length htokens
    simp [Phrase.item, hpath, memberTokens] at hlength
    omega
  | element object index =>
    have hlength := congrArg List.length htokens
    simp [Phrase.item] at hlength
    omega
  | call callee args =>
    have hlength := congrArg List.length htokens
    simp [Phrase.item] at hlength
    omega
  | typed type value => simp [Phrase.item] at htokens
  | literal t => cases haccess
  | quoted t => cases haccess
  | number n => cases haccess
  | create constructor args => cases haccess

/-- What may follow an index of `let` is no part of a phrase that begins with none. -/
theorem Phrase.declaresNothing : ∀ {p : Phrase}, p.Ok → p.isAccess = true → p.indexesLet = false →
    DeclaresNothing p.item
  | .name path, h, _, _ => by
    obtain ⟨n, ns, hpath, -⟩ := h
    rw [Phrase.item, hpath]
    exact declaresNothing_memberTokens
  | .this path, _, _, _ => declaresNothing_memberTokens
  | .member object property, ⟨haccess, hobject, _⟩, _, hlet => by
    obtain ⟨n, ns, hpath⟩ := List.exists_cons_of_ne_nil (segments_ne_nil property)
    rw [Phrase.item, hpath]
    exact (object.declaresNothing hobject haccess hlet).append (object.readable hobject).begins (.inl (by decide))
  | .element object index, ⟨haccess, hobject, _⟩, _, hlet => by
    rw [Phrase.indexesLet, Bool.or_eq_false_iff] at hlet
    rw [Phrase.item, List.append_assoc]
    exact (object.declaresNothing hobject haccess hlet.2).append (object.readable hobject).begins
      (.inr (tokens_ne_let hobject haccess hlet.1))
  | .call callee args, ⟨haccess, hcallee, _⟩, _, hlet => by
    rw [Phrase.item, List.append_assoc]
    exact (callee.declaresNothing hcallee haccess hlet).append (callee.readable hcallee).begins (.inl (by decide))
  | .typed type value, _, _, _ => declaresNothing_of_ne (by simp)
  | .literal t, _, haccess, _ => nomatch haccess
  | .quoted t, _, haccess, _ => nomatch haccess
  | .number n, _, haccess, _ => nomatch haccess
  | .create constructor args, _, haccess, _ => nomatch haccess

end Relabel.Fragment
