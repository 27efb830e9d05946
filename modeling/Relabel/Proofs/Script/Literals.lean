import Relabel.Proofs.Script.Numerals

/-!
# Literals in front of a text

A string that is one token by itself is the same token in front of any text, so a literal is the
same in front of a stop.
-/

namespace Relabel.Script
variable {n : Nat} {c quote : Char} {cs rest : List Char} {p : Char → Bool}

/-! ### Strings -/

/-- An escape in front of some more text. -/
def Escape.before (e : Escape) (rest : List Char) : Escape :=
  { e with rest := e.rest ++ rest }

theorem takeWhile_append_of_drop (rest : List Char)
    (h : cs.drop (cs.takeWhile p).length ≠ []) : (cs ++ rest).takeWhile p = cs.takeWhile p := by
  rw [List.takeWhile_append, if_neg]
  intro hall
  rw [hall, List.drop_length] at h
  exact h rfl

theorem codePoint?_append {k size : Nat} {r : List Char} (h : codePoint? cs = some (k, size, r))
    (rest : List Char) :
    codePoint? (cs ++ rest) = some (k, size, r ++ rest) ∧ r.length + 3 ≤ cs.length := by
  rw [codePoint?.eq_def] at h
  split at h
  · next cs =>
    simp only [Option.bind_eq_bind, Option.bind_eq_some_iff, Option.guard_eq_some'] at h
    obtain ⟨-, hempty, k', hk, -, hle, hrest⟩ := h
    split at hrest
    · next r' hdrop =>
      simp only [Option.pure_def, Option.some.injEq, Prod.mk.injEq] at hrest
      obtain ⟨rfl, rfl, rfl⟩ := hrest
      have htake := takeWhile_append_of_drop (p := fun c => (Text.hexDigit? c).isSome) rest
        (by rw [hdrop]; exact List.cons_ne_nil _ _)
      have hdrop' : (cs ++ rest).drop (cs.takeWhile fun c => (Text.hexDigit? c).isSome).length =
          cs.drop (cs.takeWhile fun c => (Text.hexDigit? c).isSome).length ++ rest :=
        List.drop_append_of_le_length (List.takeWhile_prefix _).length_le
      constructor
      · simp only [List.cons_append, codePoint?, htake, hdrop', hdrop, hk]
        simp [hempty, hle]
      · have hlen := congrArg List.length hdrop
        have hpos : (cs.takeWhile fun c => (Text.hexDigit? c).isSome) ≠ [] := by
          simpa using hempty
        have := List.length_pos_iff.2 hpos
        simp only [List.length_drop, List.length_cons] at hlen ⊢
        omega
    · cases hrest
  · next a b c d r' _ =>
    obtain ⟨k', hk, hrest⟩ := Option.map_eq_some_iff.1 h
    simp only [Prod.mk.injEq] at hrest
    obtain ⟨rfl, rfl, rfl⟩ := hrest
    constructor
    · simp [codePoint?, hk]
    · simp only [List.length_cons]
      omega
  · cases h

theorem stringPoints?_ne_nil (h : (stringPoints? quote n cs).isSome = true) : cs ≠ [] := by
  rintro rfl
  cases n <;> cases h

/-- An escape whose first code point has been read, with a second one that makes a pair of it. -/
def paired (k size : Nat) (r : List Char) : Escape :=
  match r with
  | '\\' :: 'u' :: a :: b :: c :: d :: rest =>
    match Text.hexNumber? [a, b, c, d] with
    | some low =>
      if isHighSurrogate k && size = 4 && isLowSurrogate low then
        ⟨[0x10000 + (k - 0xd800) * 0x400 + (low - 0xdc00)], 11, rest⟩
      else ⟨[k], size + 1, r⟩
    | none => ⟨[k], size + 1, r⟩
  | _ => ⟨[k], size + 1, r⟩

theorem unicodeEscape?_eq (cs : List Char) :
    unicodeEscape? cs = (codePoint? cs).map fun (k, size, r) => paired k size r := by
  rw [unicodeEscape?]
  cases codePoint? cs with
  | none => rfl
  | some found =>
    obtain ⟨k, size, r⟩ := found
    by_cases hlow : ∃ a b c d rest, r = '\\' :: 'u' :: a :: b :: c :: d :: rest
    · obtain ⟨a, b, c, d, rest, rfl⟩ := hlow
      simp only [Option.bind_eq_bind, Option.bind_some, Option.map_some, paired]
      cases Text.hexNumber? [a, b, c, d] with
      | none => rfl
      | some low =>
        dsimp only
        split <;> rfl
    · have hpaired : paired k size r = ⟨[k], size + 1, r⟩ := by
        rw [paired.eq_def]
        split
        · exact absurd ⟨_, _, _, _, _, rfl⟩ hlow
        · rfl
      simp only [Option.bind_eq_bind, Option.bind_some, Option.map_some, hpaired]
      split
      · exact absurd ⟨_, _, _, _, _, rfl⟩ hlow
      · rfl

theorem length_paired_le (k size : Nat) (r : List Char) : (paired k size r).rest.length ≤ r.length := by
  rw [paired.eq_def]
  split
  · split
    · split
      · simp only [List.length_cons]
        omega
      · exact Nat.le_refl _
    · exact Nat.le_refl _
  · exact Nat.le_refl _

theorem length_unicodeEscape? {e : Escape} (h : unicodeEscape? cs = some e) :
    e.rest.length + 3 ≤ cs.length := by
  rw [unicodeEscape?_eq] at h
  obtain ⟨⟨k, size, r⟩, hpoint, rfl⟩ := Option.map_eq_some_iff.1 h
  have hlen := (codePoint?_append hpoint []).2
  have := length_paired_le k size r
  show (paired k size r).rest.length + 3 ≤ cs.length
  omega

/-- Behind the `\\u` of an escape inside a string there are four characters at least. -/
theorem length_of_stringPoints?_unicode
    (h : (stringPoints? quote n ('\\' :: 'u' :: cs)).isSome = true) : 4 ≤ cs.length := by
  cases n with
  | zero => cases h
  | succ n =>
    rw [stringPoints?] at h
    have hescape : escape? ('u' :: cs) = unicodeEscape? cs := rfl
    rw [hescape] at h
    cases he : unicodeEscape? cs with
    | none => simp [he] at h
    | some e =>
      have hlen := length_unicodeEscape? he
      cases hm : stringPoints? quote n e.rest with
      | none => simp [he, hm] at h
      | some more =>
        have := List.length_pos_iff.2 (stringPoints?_ne_nil (h := by rw [hm]; rfl))
        omega

theorem paired_append {k size : Nat} {r : List Char}
    (hmore : (stringPoints? quote n (paired k size r).rest).isSome = true) (rest : List Char) :
    paired k size (r ++ rest) = (paired k size r).before rest := by
  by_cases hr : ∃ a b c d r', r = '\\' :: 'u' :: a :: b :: c :: d :: r'
  · obtain ⟨a, b, c, d, r, rfl⟩ := hr
    simp only [List.cons_append, paired]
    split
    · split <;> rfl
    · rfl
  · have hsingle : paired k size r = ⟨[k], size + 1, r⟩ := by
      rw [paired.eq_def]
      split
      · exact absurd ⟨_, _, _, _, _, rfl⟩ hr
      · rfl
    rw [hsingle] at hmore ⊢
    rw [paired.eq_def]
    split
    · next a b c d r' hrr =>
      exfalso
      -- the string goes on behind `r`, so `r` holds the second escape as a whole
      rcases r with _ | ⟨x, _ | ⟨y, r⟩⟩
      · exact stringPoints?_ne_nil hmore rfl
      · injection hrr with hx _
        subst hx
        cases n <;> cases hmore
      · injection hrr with hx hrr
        injection hrr with hy hrr
        subst hx
        subst hy
        have hlen := length_of_stringPoints?_unicode hmore
        match r, hlen with
        | a :: b :: c :: d :: r, _ => exact hr ⟨a, b, c, d, r, rfl⟩
    · rfl

theorem unicodeEscape?_append {e : Escape} (h : unicodeEscape? cs = some e)
    (hmore : (stringPoints? quote n e.rest).isSome = true) (rest : List Char) :
    unicodeEscape? (cs ++ rest) = some (e.before rest) := by
  rw [unicodeEscape?_eq] at h ⊢
  obtain ⟨⟨k, size, r⟩, hpoint, rfl⟩ := Option.map_eq_some_iff.1 h
  rw [(codePoint?_append hpoint rest).1]
  exact congrArg some (paired_append hmore rest)

/-- An escape of one character, a line continuation or octal digits. -/
def plainEscape (c : Char) (cs : List Char) : Escape :=
  if isLineEnd c then ⟨[], c.utf8Size, cs⟩
  else if isOctal c then
    let digits := ((c :: cs).take (if c ≤ '3' then 3 else 2)).takeWhile isOctal
    ⟨[digitsValue 8 digits], digits.length, (c :: cs).drop digits.length⟩
  else ⟨[(controlEscape c).toNat], c.utf8Size, cs⟩

theorem escape?_of_ne (hx : c ≠ 'x') (hu : c ≠ 'u') (hline : ∀ cs', c = '\r' → cs ≠ '\n' :: cs') :
    escape? (c :: cs) = some (plainEscape c cs) := by
  rw [escape?.eq_def, plainEscape]
  split
  · next h =>
    injection h with hc hcs
    exact absurd hcs (hline _ hc)
  · next h =>
    injection h with hc _
    exact absurd hc hx
  · next h =>
    injection h with hc _
    exact absurd hc hu
  · next h =>
    injection h with hc hcs
    subst hc
    subst hcs
    split
    · rfl
    · split <;> rfl
  · next h => cases h

theorem takeWhile_take_append {k : Nat} (rest : List Char)
    (h : cs.drop ((cs.take k).takeWhile p).length ≠ []) :
    ((cs ++ rest).take k).takeWhile p = (cs.take k).takeWhile p := by
  rw [List.take_append]
  rcases Nat.le_total k cs.length with hk | hk
  · rw [Nat.sub_eq_zero_of_le hk, List.take_zero, List.append_nil]
  · rw [List.take_of_length_le hk] at h ⊢
    exact takeWhile_append_of_drop _ h

theorem plainEscape_append (h : (plainEscape c cs).rest ≠ []) (rest : List Char) :
    plainEscape c (cs ++ rest) = (plainEscape c cs).before rest := by
  rw [plainEscape] at h
  rw [plainEscape, plainEscape]
  split
  · rfl
  split
  · next hline hoctal =>
    rw [if_neg hline, if_pos hoctal] at h
    have htake := takeWhile_take_append rest h
    rw [List.cons_append] at htake
    have hlength : (((c :: cs).take (if c ≤ '3' then 3 else 2)).takeWhile isOctal).length ≤
        (c :: cs).length := by
      refine Nat.le_trans (List.takeWhile_prefix _).length_le ?_
      rw [List.length_take]
      exact Nat.min_le_right _ _
    have hdrop := @List.drop_append_of_le_length _ (c :: cs) rest _ hlength
    rw [List.cons_append] at hdrop
    simp only [htake, hdrop]
    rfl
  · rfl

/-- An escape inside a string is the same in front of more text. -/
theorem escape?_append {e : Escape} (h : escape? cs = some e)
    (hmore : (stringPoints? quote n e.rest).isSome = true) (rest : List Char) :
    escape? (cs ++ rest) = some (e.before rest) := by
  cases cs with
  | nil => cases h
  | cons c cs =>
    by_cases hx : c = 'x'
    · subst hx
      match cs, h with
      | a :: b :: cs, h =>
        have h : (Text.hexNumber? [a, b]).map (fun n => (⟨[n], 3, cs⟩ : Escape)) = some e := h
        obtain ⟨k, hk, rfl⟩ := Option.map_eq_some_iff.1 h
        show (Text.hexNumber? [a, b]).map (fun n => (⟨[n], 3, cs ++ rest⟩ : Escape)) = _
        rw [hk]
        rfl
    by_cases hu : c = 'u'
    · subst hu
      exact @unicodeEscape?_append n quote cs e h hmore rest
    by_cases hline : ∃ cs', c = '\r' ∧ cs = '\n' :: cs'
    · obtain ⟨cs', rfl, rfl⟩ := hline
      injection h with h
      rw [← h]
      rfl
    have hne : ∀ cs', c = '\r' → cs ≠ '\n' :: cs' := fun cs' hc hcs => hline ⟨cs', hc, hcs⟩
    rw [escape?_of_ne hx hu hne] at h
    injection h with h
    subst h
    have hrest := stringPoints?_ne_nil hmore
    rw [List.cons_append, escape?_of_ne hx hu, plainEscape_append hrest]
    rintro cs' rfl hcs
    cases cs with
    | nil => exact hrest rfl
    | cons x cs =>
      injection hcs with hx _
      exact hne cs rfl (by rw [hx])

theorem stringPoints?_of_ne (h : c ≠ '\\') (quote : Char) (n : Nat) (cs : List Char) :
    stringPoints? quote (n + 1) (c :: cs) =
      if c = quote then some ⟨[], 1, cs⟩
      else if c = '\n' ∨ c = '\r' then none
      else (stringPoints? quote n cs).map
        fun more => ⟨c.toNat :: more.points, c.utf8Size + more.size, more.rest⟩ := by
  rw [stringPoints?]
  · cases stringPoints? quote n cs <;> rfl
  · exact h

/-- A string is the same in front of more text. -/
theorem stringPoints?_append {e : Escape} {m : Nat} (h : stringPoints? quote n cs = some e)
    (hm : n ≤ m) (rest : List Char) : stringPoints? quote m (cs ++ rest) = some (e.before rest) := by
  induction n generalizing m cs e with
  | zero => cases cs <;> cases h
  | succ n ih =>
    obtain ⟨m, rfl⟩ : ∃ k, m = k + 1 := ⟨m - 1, by omega⟩
    cases cs with
    | nil => cases h
    | cons c cs =>
      by_cases hslash : c = '\\'
      · subst hslash
        rw [stringPoints?] at h
        simp only [Option.bind_eq_bind, Option.bind_eq_some_iff] at h
        obtain ⟨e', hescape, more, hmore, h⟩ := h
        injection h with h
        subst h
        have he := escape?_append hescape (by rw [hmore]; rfl) rest
        have hm := ih hmore (Nat.le_of_succ_le_succ hm)
        rw [List.cons_append, stringPoints?, he]
        simp only [Option.bind_eq_bind, Option.bind_some, Escape.before] at hm ⊢
        rw [hm]
        rfl
      · rw [stringPoints?_of_ne hslash] at h
        rw [List.cons_append, stringPoints?_of_ne hslash]
        split at h
        · next hquote =>
          injection h with h
          rw [if_pos hquote, ← h]
          rfl
        split at h
        · cases h
        · next hquote hend =>
          obtain ⟨more, hmore, rfl⟩ := Option.map_eq_some_iff.1 h
          rw [if_neg hquote, if_neg hend, ih hmore (Nat.le_of_succ_le_succ hm)]
          rfl

/-! ### Tokens -/

/-- Whether a token is a number or a string. -/
def isLiteralToken : Token → Bool
  | .number _ => true
  | .string _ => true
  | _ => false

theorem template?_token {raw : List Char} {valid : Bool} {size : Nat} {l : Lexeme}
    (h : template? raw valid size cs = some l) : ∃ text valid isLast, l.token = .template text valid isLast := by
  induction raw, valid, size, cs using template?.induct with
  | case1 => cases h
  | case2 =>
    obtain rfl := Option.some.inj h
    exact ⟨_, _, _, rfl⟩
  | case3 =>
    obtain rfl := Option.some.inj h
    exact ⟨_, _, _, rfl⟩
  | case4 raw valid size c cs ih => exact ih h
  | case5 raw valid size c cs h1 h2 h3 ih =>
    rw [template?] at h
    · exact ih h
    · exact h1
    · exact h2
    · exact h3

theorem nameToken?_token {l : Lexeme} (h : nameToken? n cs = some l) :
    (∃ text, l.token = .privateName text) ∨ ∃ text escaped, l.token = .name text escaped := by
  rw [nameToken?.eq_def] at h
  split at h
  · obtain ⟨s, -, rfl⟩ := Option.map_eq_some_iff.1 h
    exact .inl ⟨_, rfl⟩
  · obtain ⟨s, -, rfl⟩ := Option.map_eq_some_iff.1 h
    exact .inr ⟨_, _, rfl⟩

/-- The mark that a text begins with. -/
theorem mark?_eq_some {l : Lexeme} (h : mark? cs = some l) :
    ∃ m ∈ marks, l = ⟨.mark m, m.length, l.rest⟩ ∧ cs = m.toList ++ l.rest := by
  rw [mark?] at h
  obtain ⟨m, hm, hfound⟩ := List.exists_of_findSome?_eq_some h
  split at hfound
  · next rest hstrip =>
    split at hfound
    · obtain rfl := Option.some.inj hfound
      exact ⟨m, hm, rfl, Text.eq_append_of_stripPrefix? hstrip⟩
    · cases hfound
  · cases hfound

/-- How a literal begins decides how it is read. -/
theorem lexeme?_literal {l : Lexeme} (h : lexeme? n (c :: cs) = some l)
    (hl : isLiteralToken l.token = true) :
    ((c.isDigit || (c == '.' && cs.head?.any Char.isDigit)) = true ∧ number? (c :: cs) = some l) ∨
      ((c = '"' ∨ c = '\'') ∧ string? c n cs = some l) := by
  rw [lexeme?] at h
  split at h
  · next hnumber => exact .inl ⟨hnumber, h⟩
  split at h
  · next hquote => exact .inr ⟨hquote, h⟩
  · exfalso
    have hnone : isLiteralToken l.token = false := by
      split at h
      · obtain ⟨text, valid, isLast, htoken⟩ := template?_token h
        rw [htoken]
        rfl
      split at h
      · rcases nameToken?_token h with ⟨text, htoken⟩ | ⟨text, escaped, htoken⟩ <;> (rw [htoken]; rfl)
      · obtain ⟨m, -, hmark, -⟩ := mark?_eq_some h
        rw [hmark]
        rfl
    rw [hnone] at hl
    cases hl

/-- A number or a string that is all of a text is read in front of a stop too. -/
theorem lexeme?_append {l : Lexeme} {m : Nat} (h : lexeme? n cs = some l)
    (hl : isLiteralToken l.token = true) (hend : l.rest = []) (hm : n ≤ m) (hrest : Stops rest) :
    lexeme? m (cs ++ rest) = some (l.before rest) := by
  cases cs with
  | nil =>
    injection h with h
    rw [← h] at hl
    cases hl
  | cons c cs =>
    rw [List.cons_append, lexeme?]
    rcases lexeme?_literal h hl with ⟨hnumber, h⟩ | ⟨hquote, h⟩
    · have hhead : (c.isDigit || (c == '.' && (cs ++ rest).head?.any Char.isDigit)) = true := by
        cases cs with
        | nil =>
          have hdigit : c.isDigit = true := by simpa using hnumber
          rw [hdigit, Bool.true_or]
        | cons x cs => exact hnumber
      rw [if_pos hhead]
      exact number?_append h hrest
    · obtain ⟨e, he, rfl⟩ := Option.map_eq_some_iff.1 h
      have hhead : ¬ (c.isDigit || (c == '.' && (cs ++ rest).head?.any Char.isDigit)) = true := by
        rcases hquote with rfl | rfl <;> simp
      rw [if_neg hhead, if_pos hquote, string?, stringPoints?_append he hm rest]
      rfl

theorem literal_head {l : Lexeme} (h : lexeme? n cs = some l) (hl : isLiteralToken l.token = true) :
    ∃ c ds, cs = c :: ds ∧ isInk c = true ∧ c ≠ '+' ∧ c ≠ '-' ∧ c ≠ '=' := by
  cases cs with
  | nil =>
    injection h with h
    rw [← h] at hl
    cases hl
  | cons c cs =>
    refine ⟨c, cs, rfl, ?_⟩
    have hdigit : c.isDigit = true → isInk c = true ∧ c ≠ '+' ∧ c ≠ '-' ∧ c ≠ '=' := by
      intro hc
      have hname := (continuesName_of_isDigit hc).1
      exact ⟨isInk_of_continuesName hname, ne_of_continuesName hname (by decide),
        ne_of_continuesName hname (by decide), ne_of_continuesName hname (by decide)⟩
    rcases lexeme?_literal h hl with ⟨hnumber, -⟩ | ⟨rfl | rfl, -⟩
    · rw [Bool.or_eq_true, Bool.and_eq_true] at hnumber
      rcases hnumber with hc | ⟨hc, -⟩
      · exact hdigit hc
      · rw [eq_of_beq hc]
        decide
    · decide
    · decide

end Relabel.Script
