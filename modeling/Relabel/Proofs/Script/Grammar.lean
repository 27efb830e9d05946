import Relabel.Proofs.Script.Sizes

/-!
# The grammar of literals

String literals and decimal literals as the grammar of the language has them, with and without the
forms of old programs: octal escapes, and digits behind a zero. The reader knows no difference: it
reads a text to its end as a string or as a number exactly if the grammar has it with the old forms
(`stringPoints?_iff`, `IsDecimal.exists_number?`, `IsDecimal.zeroOk_of_number?`).
-/

namespace Relabel.Script
open Text
variable {legacy : Bool} {quote c : Char} {cs ds rest : List Char} {k n : Nat}

/-! ### Strings -/

/-- The text behind the opening quote of a string literal, up to its closing quote. -/
inductive StringTail (legacy : Bool) (quote : Char) : List Char → Prop
  | close : StringTail legacy quote [quote]
  | plain {c : Char} {cs : List Char} (hquote : c ≠ quote) (hslash : c ≠ '\\') (hfeed : c ≠ '\n')
    (hreturn : c ≠ '\r') (h : StringTail legacy quote cs) : StringTail legacy quote (c :: cs)
  /-- A line that goes on. -/
  | continued {c : Char} {cs : List Char} (hc : isLineEnd c = true) (h : StringTail legacy quote cs) :
    StringTail legacy quote ('\\' :: c :: cs)
  | continuedPair {cs : List Char} (h : StringTail legacy quote cs) :
    StringTail legacy quote ('\\' :: '\r' :: '\n' :: cs)
  | escape {c : Char} {cs : List Char} (hx : c ≠ 'x') (hu : c ≠ 'u') (hdigit : c.isDigit = false)
    (hend : isLineEnd c = false) (h : StringTail legacy quote cs) : StringTail legacy quote ('\\' :: c :: cs)
  /-- No digit but a zero that no other digit follows, save in old programs. -/
  | digit {c : Char} {cs : List Char} (hc : c.isDigit = true)
    (hold : legacy = true ∨ c = '0' ∧ ∀ d ∈ cs.head?, d.isDigit = false) (h : StringTail legacy quote cs) :
    StringTail legacy quote ('\\' :: c :: cs)
  | hex {a b : Char} {n : Nat} {cs : List Char} (hn : hexNumber? [a, b] = some n)
    (h : StringTail legacy quote cs) : StringTail legacy quote ('\\' :: 'x' :: a :: b :: cs)
  | unit {a b c d : Char} {n : Nat} {cs : List Char} (hn : hexNumber? [a, b, c, d] = some n)
    (h : StringTail legacy quote cs) : StringTail legacy quote ('\\' :: 'u' :: a :: b :: c :: d :: cs)
  | point {ds : List Char} {n : Nat} {cs : List Char} (hds : ds ≠ []) (hn : hexNumber? ds = some n)
    (hle : n ≤ 0x10ffff) (h : StringTail legacy quote cs) :
    StringTail legacy quote ('\\' :: 'u' :: '{' :: (ds ++ '}' :: cs))

/-- One of the two quotes. -/
def IsQuote (quote : Char) : Prop :=
  quote = '\'' ∨ quote = '"'

theorem ne_of_isDigit {d : Char} (h : c.isDigit = true) (hd : d.isDigit = false) : c ≠ d := by
  rintro rfl
  rw [h] at hd
  cases hd

theorem IsQuote.isDigit (h : IsQuote quote) : quote.isDigit = false := by
  rcases h with rfl | rfl <;> rfl

theorem IsQuote.ne (h : IsQuote quote) : quote ≠ '\\' ∧ quote ≠ '\n' ∧ quote ≠ '\r' := by
  rcases h with rfl | rfl <;> decide

theorem codePoint?_of_hexNumber? {a b c d : Char} (hn : hexNumber? [a, b, c, d] = some n) (rest : List Char) :
    codePoint? (a :: b :: c :: d :: rest) = some (n, 4, rest) := by
  rw [codePoint?]
  · rw [hn]
    rfl
  · rintro rfl
    exact absurd (isSome_of_hexNumber? hn '{' (List.mem_cons_self ..)) (by decide)

/-- The two ways of writing a code point. -/
theorem codePoint?_eq_some (h : codePoint? cs = some (k, n, rest)) :
    (∃ ds, ds ≠ [] ∧ hexNumber? ds = some k ∧ k ≤ 0x10ffff ∧ cs = '{' :: (ds ++ '}' :: rest)) ∨
      ∃ a b c d, hexNumber? [a, b, c, d] = some k ∧ cs = a :: b :: c :: d :: rest := by
  rw [codePoint?.eq_def] at h
  split at h
  · next cs =>
    simp only [Option.bind_eq_bind, Option.bind_eq_some_iff, Option.guard_eq_some'] at h
    obtain ⟨-, hempty, k', hk, -, hle, hrest⟩ := h
    split at hrest
    · next r hdrop =>
      simp only [Option.pure_def, Option.some.injEq, Prod.mk.injEq] at hrest
      obtain ⟨rfl, rfl, rfl⟩ := hrest
      have hcs := List.prefix_append_drop (List.takeWhile_prefix (fun c => (hexDigit? c).isSome) (l := cs))
      rw [hdrop] at hcs
      exact .inl ⟨_, by simpa using hempty, hk, by simpa using hle, by rw [← hcs]⟩
    · cases hrest
  · next a b c d r _ =>
    obtain ⟨k', hk, hrest⟩ := Option.map_eq_some_iff.1 h
    simp only [Prod.mk.injEq] at hrest
    obtain ⟨rfl, rfl, rfl⟩ := hrest
    exact .inr ⟨a, b, c, d, hk, rfl⟩
  · cases h

theorem isDigit_of_isOctal (h : isOctal c = true) : c.isDigit = true := by
  simp only [isOctal, Bool.and_eq_true, decide_eq_true_eq] at h
  simp only [Char.isDigit, Bool.and_eq_true, decide_eq_true_eq]
  exact ⟨h.1, UInt32.le_trans h.2 (by decide)⟩

/-- The digits that an octal escape reads, and what it leaves. -/
theorem exists_octalRun (hc : isOctal c = true) (cs : List Char) :
    ∃ ds, ((c :: cs).take (if c ≤ '3' then 3 else 2)).takeWhile isOctal = c :: ds ∧
      (∀ d ∈ ds, d.isDigit = true) ∧ cs = ds ++ (c :: cs).drop (c :: ds).length := by
  obtain ⟨k, hk⟩ : ∃ k, (if c ≤ '3' then 3 else 2) = k + 1 := by split <;> exact ⟨_, rfl⟩
  have hrun : (cs.take k).takeWhile isOctal <+: cs := (List.takeWhile_prefix _).trans (List.take_prefix _ _)
  refine ⟨(cs.take k).takeWhile isOctal, ?_, fun d hd => isDigit_of_isOctal (List.mem_takeWhile_imp hd), ?_⟩
  · rw [hk, List.take_succ_cons, List.takeWhile_cons_of_pos hc]
  · rw [List.length_cons, List.drop_succ_cons]
    exact (List.prefix_append_drop hrun)

namespace StringTail

theorem of_digits (hquote : IsQuote quote) (hds : ∀ c ∈ ds, c.isDigit = true)
    (h : StringTail legacy quote cs) : StringTail legacy quote (ds ++ cs) := by
  induction ds with
  | nil => exact h
  | cons d ds ih =>
    obtain ⟨hd, hds⟩ := List.forall_mem_cons.1 hds
    exact .plain (ne_of_isDigit hd hquote.isDigit) (ne_of_isDigit hd rfl) (ne_of_isDigit hd rfl)
      (ne_of_isDigit hd rfl) (ih hds)

theorem of_cons (h : StringTail legacy quote (c :: cs)) (hquote : c ≠ quote) (hslash : c ≠ '\\') :
    StringTail legacy quote cs := by
  cases h with
  | close => exact absurd rfl hquote
  | plain _ _ _ _ h => exact h
  | continued | continuedPair | escape | digit | hex | unit | point => exact absurd rfl hslash

theorem of_digits_append (hquote : IsQuote quote) (hds : ∀ c ∈ ds, c.isDigit = true)
    (h : StringTail legacy quote (ds ++ cs)) : StringTail legacy quote cs := by
  induction ds with
  | nil => exact h
  | cons d ds ih =>
    obtain ⟨hd, hds⟩ := List.forall_mem_cons.1 hds
    exact ih hds (h.of_cons (ne_of_isDigit hd hquote.isDigit) (ne_of_isDigit hd rfl))

theorem ne_nil (h : StringTail legacy quote cs) : cs ≠ [] := by
  cases h <;> exact List.cons_ne_nil _ _

/-- The code point that a `\\u` names, whichever way. -/
theorem of_codePoint? (hpoint : codePoint? cs = some (k, n, rest)) (h : StringTail legacy quote rest) :
    StringTail legacy quote ('\\' :: 'u' :: cs) := by
  rcases codePoint?_eq_some hpoint with ⟨ds, hds, hk, hle, rfl⟩ | ⟨a, b, c, d, hk, rfl⟩
  · exact .point hds hk hle h
  · exact .unit hk h

theorem exists_codePoint? (h : StringTail legacy quote ('\\' :: 'u' :: cs)) :
    ∃ k n rest, codePoint? cs = some (k, n, rest) ∧ StringTail legacy quote rest := by
  cases h with
  | plain _ hslash => exact absurd rfl hslash
  | continued hc => exact absurd hc (by decide)
  | escape _ hu => exact absurd rfl hu
  | digit hc => exact absurd hc (by decide)
  | @unit a b c d n cs hn h =>
    exact ⟨n, 4, cs, codePoint?_of_hexNumber? hn cs, h⟩
  | @point ds n cs hds hn hle h =>
    have htake : (ds ++ '}' :: cs).takeWhile (fun c => (hexDigit? c).isSome) = ds := by
      rw [List.takeWhile_append_of_pos (isSome_of_hexNumber? hn), List.takeWhile_cons_of_neg (by decide),
        List.append_nil]
    refine ⟨n, ds.length + 2, cs, ?_, h⟩
    rw [codePoint?]
    simp [htake, hn, hle, hds]

/-- What stands behind the second half of a pair, or behind a point that is no half. -/
theorem paired (h : StringTail legacy quote rest) :
    StringTail legacy quote (Script.paired k n rest).rest := by
  rw [Script.paired.eq_def]
  split
  · next a b c d rest =>
    split
    · next low hlow =>
      split
      · obtain ⟨k', n', rest', hpoint, h'⟩ := h.exists_codePoint?
        rw [codePoint?_of_hexNumber? hlow rest] at hpoint
        simp only [Option.some.injEq, Prod.mk.injEq] at hpoint
        rw [hpoint.2.2]
        exact h'
      · exact h
    · exact h
  · exact h

theorem of_paired (h : StringTail legacy quote (Script.paired k n rest).rest) :
    StringTail legacy quote rest := by
  rw [Script.paired.eq_def] at h
  split at h
  · next a b c d rest =>
    split at h
    · next low hlow =>
      split at h
      · exact .unit hlow h
      · exact h
    · exact h
  · exact h

/-- An escape that is read, in front of the rest of a string, is one of the grammar. -/
theorem of_escape? {e : Escape} (hquote : IsQuote quote) (he : escape? cs = some e)
    (h : StringTail true quote e.rest) : StringTail true quote ('\\' :: cs) := by
  cases cs with
  | nil => cases he
  | cons c cs =>
    by_cases hx : c = 'x'
    · subst hx
      match cs, he with
      | a :: b :: cs, he =>
        have he : (hexNumber? [a, b]).map (fun n => (⟨[n], 3, cs⟩ : Escape)) = some e := he
        obtain ⟨k, hk, rfl⟩ := Option.map_eq_some_iff.1 he
        exact .hex hk h
    by_cases hu : c = 'u'
    · subst hu
      have he : unicodeEscape? cs = some e := he
      rw [unicodeEscape?_eq] at he
      obtain ⟨⟨k, n, r⟩, hpoint, rfl⟩ := Option.map_eq_some_iff.1 he
      exact .of_codePoint? hpoint h.of_paired
    by_cases hline : ∃ cs', c = '\r' ∧ cs = '\n' :: cs'
    · obtain ⟨cs', rfl, rfl⟩ := hline
      injection he with he
      subst he
      exact .continuedPair h
    rw [escape?_of_ne hx hu fun cs' hc hcs => hline ⟨cs', hc, hcs⟩] at he
    injection he with he
    subst he
    rw [plainEscape] at h
    split at h
    · next hend => exact .continued hend h
    split at h
    · next hend hoctal =>
      obtain ⟨ds, hrun, hdigits, hcs⟩ := exists_octalRun hoctal cs
      rw [hrun] at h
      rw [hcs]
      exact .digit (isDigit_of_isOctal hoctal) (.inl rfl) (of_digits hquote hdigits h)
    · next hend hoctal =>
      cases hdigit : c.isDigit with
      | true => exact .digit hdigit (.inl rfl) h
      | false => exact .escape hx hu hdigit (by simpa using hend) h

/-- An escape of the grammar is read, and the rest of the string stands behind it. -/
theorem exists_escape? (hquote : IsQuote quote) (h : StringTail true quote ('\\' :: cs)) :
    ∃ e, escape? cs = some e ∧ StringTail true quote e.rest := by
  by_cases hunicode : ∃ cs', cs = 'u' :: cs'
  · obtain ⟨cs', rfl⟩ := hunicode
    obtain ⟨k, n, rest, hpoint, h⟩ := h.exists_codePoint?
    refine ⟨Script.paired k n rest, ?_, h.paired⟩
    show unicodeEscape? cs' = _
    rw [unicodeEscape?_eq, hpoint]
    rfl
  cases h with
  | close => exact absurd rfl hquote.ne.1
  | plain _ hslash => exact absurd rfl hslash
  | @continued c cs hend h =>
    have hne : ∀ x, isLineEnd x = false → c ≠ x := by
      rintro x hx rfl
      rw [hend] at hx
      cases hx
    by_cases hline : ∃ cs', c = '\r' ∧ cs = '\n' :: cs'
    · obtain ⟨cs', rfl, rfl⟩ := hline
      exact ⟨⟨[], 2, cs'⟩, rfl, h.of_cons hquote.ne.2.1.symm (by decide)⟩
    · refine ⟨_, escape?_of_ne (hne 'x' rfl) (hne 'u' rfl) fun cs' hc hcs => hline ⟨cs', hc, hcs⟩, ?_⟩
      rw [plainEscape, if_pos hend]
      exact h
  | continuedPair h => exact ⟨_, rfl, h⟩
  | @escape c cs hx hu hdigit hend h =>
    have hreturn : c ≠ '\r' := by
      rintro rfl
      cases hend
    refine ⟨_, escape?_of_ne hx hu fun _ hc => absurd hc hreturn, ?_⟩
    have hoctal : ¬ isOctal c = true := fun hoctal => by
      rw [isDigit_of_isOctal hoctal] at hdigit
      cases hdigit
    rw [plainEscape, if_neg (by rw [hend]; exact Bool.false_ne_true), if_neg hoctal]
    exact h
  | @digit c cs hdigit hold h =>
    have hend : ¬ isLineEnd c = true := fun hend => by
      simp only [isLineEnd, Bool.or_eq_true, beq_iff_eq] at hend
      rcases hend with ((rfl | rfl) | rfl) | rfl <;> exact absurd hdigit (by decide)
    refine ⟨_, escape?_of_ne (ne_of_isDigit hdigit rfl) (ne_of_isDigit hdigit rfl)
      fun _ hc => absurd hc (ne_of_isDigit hdigit rfl), ?_⟩
    rw [plainEscape, if_neg hend]
    split
    · next hoctal =>
      obtain ⟨ds, hrun, hdigits, hcs⟩ := exists_octalRun hoctal cs
      rw [hrun]
      rw [hcs] at h
      exact h.of_digits_append hquote hdigits
    · exact h
  | @hex a b k cs hk h =>
    refine ⟨⟨[k], 3, cs⟩, ?_, h⟩
    show (hexNumber? [a, b]).map (fun n => (⟨[n], 3, cs⟩ : Escape)) = _
    rw [hk]
    rfl
  | unit => exact absurd ⟨_, rfl⟩ hunicode
  | point => exact absurd ⟨_, rfl⟩ hunicode

end StringTail

/-- A text is read to its end as the points of a string exactly if the grammar has it with the old
forms. -/
theorem stringPoints?_iff (hquote : IsQuote quote) (hn : cs.length ≤ n) :
    (∃ e, stringPoints? quote n cs = some e ∧ e.rest = []) ↔ StringTail true quote cs := by
  induction n generalizing cs with
  | zero =>
    obtain rfl := List.length_eq_zero_iff.1 (Nat.le_zero.1 hn)
    refine ⟨?_, fun h => absurd rfl h.ne_nil⟩
    rintro ⟨e, he, -⟩
    cases he
  | succ n ih =>
    cases cs with
    | nil =>
      refine ⟨?_, fun h => absurd rfl h.ne_nil⟩
      rintro ⟨e, he, -⟩
      cases he
    | cons c cs =>
      rw [List.length_cons] at hn
      by_cases hslash : c = '\\'
      · subst hslash
        rw [stringPoints?]
        constructor
        · rintro ⟨e, he, hend⟩
          simp only [Option.bind_eq_bind, Option.bind_eq_some_iff, Option.pure_def, Option.some.injEq] at he
          obtain ⟨e', hescape, more, hmore, rfl⟩ := he
          have := (takes_escape? hescape).length_le
          exact .of_escape? hquote hescape ((ih (by omega)).1 ⟨more, hmore, hend⟩)
        · intro h
          obtain ⟨e', hescape, h⟩ := h.exists_escape? hquote
          have := (takes_escape? hescape).length_le
          obtain ⟨more, hmore, hend⟩ := (ih (by omega)).2 h
          exact ⟨⟨e'.points ++ more.points, 1 + e'.size + more.size, more.rest⟩, by rw [hescape]; simp [hmore], hend⟩
      · rw [stringPoints?_of_ne hslash]
        by_cases hc : c = quote
        · subst hc
          rw [if_pos rfl]
          constructor
          · rintro ⟨e, he, hend⟩
            obtain rfl := Option.some.inj he
            obtain rfl : cs = [] := hend
            exact .close
          · intro h
            cases h with
            | close => exact ⟨_, rfl, rfl⟩
            | plain hne => exact absurd rfl hne
            | _ => exact absurd rfl hslash
        · rw [if_neg hc]
          by_cases hend : c = '\n' ∨ c = '\r'
          · rw [if_pos hend]
            refine ⟨?_, fun h => ?_⟩
            · rintro ⟨e, he, -⟩
              cases he
            cases h with
            | close => exact absurd rfl hc
            | plain _ _ hfeed hreturn => exact absurd hend (not_or.2 ⟨hfeed, hreturn⟩)
            | _ => exact absurd rfl hslash
          · rw [if_neg hend]
            obtain ⟨hfeed, hreturn⟩ := not_or.1 hend
            constructor
            · rintro ⟨e, he, hrest⟩
              obtain ⟨more, hmore, rfl⟩ := Option.map_eq_some_iff.1 he
              exact .plain hc hslash hfeed hreturn ((ih (by omega)).1 ⟨more, hmore, hrest⟩)
            · intro h
              obtain ⟨more, hmore, hrest⟩ := (ih (by omega)).2 (h.of_cons hc hslash)
              exact ⟨⟨c.toNat :: more.points, c.utf8Size + more.size, more.rest⟩, by rw [hmore]; rfl, hrest⟩

/-! ### Numbers -/

/-- Nothing, or a point and some digits, maybe none. -/
inductive IsFraction (digit : Char → Bool) : List Char → Prop
  | absent : IsFraction digit []
  | present {ds : List Char} (hdigits : ∀ d ∈ ds, digit d = true) : IsFraction digit ('.' :: ds)

/-- Nothing, or an exponent with digits. -/
inductive IsExponent (digit : Char → Bool) : List Char → Prop
  | absent : IsExponent digit []
  | present {mark : Char} {sign ds : List Char} (hmark : mark = 'e' ∨ mark = 'E')
    (hsign : sign ∈ [[], ['+'], ['-']]) (hds : ds ≠ []) (hdigits : ∀ d ∈ ds, digit d = true) :
    IsExponent digit (mark :: (sign ++ ds))

/-- The parts of a decimal number; in front of its exponent there is one digit at least. -/
structure IsDecimal (digit : Char → Bool) (whole fraction exponent : List Char) : Prop where
  digits : ∀ d ∈ whole, digit d = true
  isFraction : IsFraction digit fraction
  isExponent : IsExponent digit exponent
  some_digit : whole = [] → ∃ d ds, fraction = '.' :: d :: ds

/-- No zero stands in front of the digits of a whole part. In old programs one may, but octal digits are
then all of the number. -/
def ZeroOk (legacy : Bool) (whole rest : List Char) : Prop :=
  whole.head? = some '0' → whole = ['0'] ∨ legacy = true ∧ (whole.all isOctal = true → rest = [])

instance (legacy : Bool) (whole rest : List Char) : Decidable (ZeroOk legacy whole rest) :=
  inferInstanceAs (Decidable (_ → _))

/-- A decimal number without separators. -/
def IsNumeral (legacy : Bool) (cs : List Char) : Prop :=
  ∃ whole fraction exponent, cs = whole ++ (fraction ++ exponent) ∧
    IsDecimal Char.isDigit whole fraction exponent ∧ ZeroOk legacy whole (fraction ++ exponent)

theorem IsDecimal.mono {p q : Char → Bool} {whole fraction exponent : List Char}
    (h : IsDecimal p whole fraction exponent)
    (hpq : ∀ c ∈ whole ++ (fraction ++ exponent), p c = true → q c = true) :
    IsDecimal q whole fraction exponent := by
  obtain ⟨hwhole, hfraction, hexponent, hdigit⟩ := h
  simp only [List.forall_mem_append] at hpq
  obtain ⟨hpqWhole, hpqFraction, hpqExponent⟩ := hpq
  refine ⟨fun d hd => hpqWhole d hd (hwhole d hd), ?_, ?_, hdigit⟩
  · cases hfraction with
    | absent => exact .absent
    | present hds => exact .present fun d hd => hpqFraction d (List.mem_cons_of_mem _ hd) (hds d hd)
  · cases hexponent with
    | absent => exact .absent
    | present hmark hsign hne hds =>
      refine .present hmark hsign hne fun d hd => hpqExponent d ?_ (hds d hd)
      exact List.mem_cons_of_mem _ (List.mem_append_right _ hd)

theorem IsDecimal.head {digit : Char → Bool} {whole fraction exponent : List Char}
    (h : IsDecimal digit whole fraction exponent) :
    ∃ c ds, whole ++ (fraction ++ exponent) = c :: ds ∧
      (digit c = true ∨ c = '.' ∧ ds.head?.any digit = true) := by
  cases whole with
  | nil =>
    obtain ⟨d, ds, rfl⟩ := h.some_digit rfl
    cases h.isFraction with
    | present hds => exact ⟨'.', _, rfl, .inr ⟨rfl, hds d (List.mem_cons_self ..)⟩⟩
  | cons c whole => exact ⟨c, _, rfl, .inl (h.digits c (List.mem_cons_self ..))⟩

/-- A decimal number is written in ASCII. -/
theorem IsDecimal.toNat_lt {whole fraction exponent : List Char}
    (h : IsDecimal Char.isDigit whole fraction exponent) :
    ∀ c ∈ whole ++ (fraction ++ exponent), c.toNat < 128 := by
  simp only [List.forall_mem_append]
  refine ⟨fun c hc => toNat_of_isDigit (h.digits c hc), ?_, ?_⟩
  · cases h.isFraction with
    | absent => simp
    | present hds =>
      exact List.forall_mem_cons.2 ⟨by decide, fun c hc => toNat_of_isDigit (hds c hc)⟩
  · cases h.isExponent with
    | absent => simp
    | present hmark hsign hne hds =>
      refine List.forall_mem_cons.2 ⟨by rcases hmark with rfl | rfl <;> decide, ?_⟩
      refine List.forall_mem_append.2 ⟨?_, fun c hc => toNat_of_isDigit (hds c hc)⟩
      simp only [List.mem_cons, List.not_mem_nil, or_false] at hsign
      rcases hsign with rfl | rfl | rfl <;> simp

theorem isSome_digitOf?_ten (c : Char) : (digitOf? 10 c).isSome = c.isDigit := by
  have hdigit : c.isDigit = true ↔ 48 ≤ c.toNat ∧ c.toNat ≤ 57 := by
    simp only [Char.isDigit, ge_iff_le, UInt32.le_iff_toNat_le, Bool.and_eq_true, decide_eq_true_eq]
    rfl
  have hvalue {n : Nat} (hn : n < 10 ↔ 48 ≤ c.toNat ∧ c.toNat ≤ 57) :
      ((some n).bind fun n => do guard (n < 10); return n).isSome = true ↔ c.isDigit = true := by
    rw [hdigit, ← hn]
    by_cases h : n < 10 <;> simp [h]
  have hle (d : Char) : d ≤ c ↔ d.toNat ≤ c.toNat := UInt32.le_iff_toNat_le
  have hge (d : Char) : c ≤ d ↔ c.toNat ≤ d.toNat := UInt32.le_iff_toNat_le
  have hcodes : '0'.toNat = 48 ∧ '9'.toNat = 57 ∧ 'a'.toNat = 97 ∧ 'A'.toNat = 65 := by decide
  rw [digitOf?, hexDigit?, Bool.eq_iff_iff]
  simp only [hle, hge, hcodes, Bool.and_eq_true, decide_eq_true_eq]
  split
  · exact hvalue (by omega)
  split
  · exact hvalue (by omega)
  split
  · exact hvalue (by omega)
  · next h _ _ =>
    rw [hdigit]
    exact ⟨fun hnone => (by cases hnone), fun hc => absurd hc h⟩

variable {whole fraction exponent : List Char} {ns : List Nat}

/-- What ends a run of decimal digits. -/
theorem digits?_of_isDigit (hne : ds ≠ []) (hds : ∀ d ∈ ds, d.isDigit = true)
    (hrest : ∀ c ∈ rest.head?, c ≠ '_' ∧ c.isDigit = false) :
    digits? 10 (ds ++ rest) = some ⟨ds.filterMap (digitOf? 10), ds.length, rest⟩ := by
  refine digits?_of_digits hne (fun d hd => ?_) fun c hc => ?_
  · rw [isSome_digitOf?_ten, hds d hd]
  · rw [isSome_digitOf?_ten, (hrest c hc).2, Bool.or_false, beq_eq_false_iff_ne]
    exact (hrest c hc).1

theorem digitRun?_of_isDigit (hds : ∀ d ∈ ds, d.isDigit = true)
    (hrest : ∀ c ∈ rest.head?, c ≠ '_' ∧ c.isDigit = false) :
    digitRun? 10 (ds ++ rest) = some ⟨ds.filterMap (digitOf? 10), ds.length, rest⟩ := by
  refine digitRun?_of_digits (fun d hd => ?_) fun c hc => ?_
  · rw [isSome_digitOf?_ten, hds d hd]
  · rw [isSome_digitOf?_ten, (hrest c hc).2, Bool.or_false, beq_eq_false_iff_ne]
    exact (hrest c hc).1

theorem IsExponent.head {digit : Char → Bool} (h : IsExponent digit cs) :
    ∀ c ∈ cs.head?, c = 'e' ∨ c = 'E' := by
  cases h with
  | absent => simp
  | present hmark =>
    intro c hc
    rwa [← Option.some.inj hc]

theorem IsExponent.stops {digit : Char → Bool} (h : IsExponent digit cs) :
    ∀ c ∈ cs.head?, c ≠ '_' ∧ c.isDigit = false := by
  intro c hc
  rcases h.head c hc with rfl | rfl <;> decide

theorem IsExponent.exists_exponent? (h : IsExponent Char.isDigit cs) :
    ∃ k n, exponent? cs = some (k, n, []) := by
  cases h with
  | absent => exact ⟨0, 0, rfl⟩
  | @present mark sign ds hmark hsign hds hdigits =>
    have hread : digits? 10 (ds ++ []) = some ⟨ds.filterMap (digitOf? 10), ds.length, []⟩ :=
      digits?_of_isDigit hds hdigits (by simp)
    rw [List.append_nil] at hread
    have hmark : (decide (mark = 'e') || decide (mark = 'E')) = true := by simpa using hmark
    simp only [List.mem_cons, List.not_mem_nil, or_false] at hsign
    rcases hsign with rfl | rfl | rfl
    · obtain ⟨d, ds, rfl⟩ := List.exists_cons_of_ne_nil hds
      have hd := hdigits d (List.mem_cons_self ..)
      have hplus : d ≠ '+' := ne_of_isDigit hd rfl
      have hminus : d ≠ '-' := ne_of_isDigit hd rfl
      simp [exponent?, hmark, hread, hplus, hminus]
    · simp [exponent?, hmark, hread]
    · simp [exponent?, hmark, hread]

theorem exists_scaled? (he : IsExponent Char.isDigit exponent) (ns ms : List Nat) (k : Nat) :
    ∃ v n, scaled? ns ms k exponent = some ⟨.number v, n, []⟩ := by
  obtain ⟨j, n, hread⟩ := he.exists_exponent?
  exact ⟨_, _, by rw [scaled?, hread]; rfl⟩

theorem exists_decimal? (hf : IsFraction Char.isDigit fraction) (he : IsExponent Char.isDigit exponent)
    (ns : List Nat) (k : Nat) :
    ∃ v n, decimal? ns k (fraction ++ exponent) = some ⟨.number v, n, []⟩ := by
  cases hf with
  | absent =>
    rw [List.nil_append, decimal?_of_ne ns k fun c hc => ?_]
    · exact exists_scaled? he ns [] k
    · rcases he.head c hc with rfl | rfl <;> decide
  | @present ds hdigits =>
    rw [List.cons_append, decimal?_dot, digitRun?_of_isDigit hdigits he.stops]
    exact exists_scaled? he ns _ _

theorem goesOn_of_ne_nil (hf : IsFraction Char.isDigit fraction) (he : IsExponent Char.isDigit exponent)
    (hne : fraction ++ exponent ≠ []) : goesOn (fraction ++ exponent) = true := by
  cases hf with
  | present => rfl
  | absent =>
    cases he with
    | absent => exact absurd rfl hne
    | present hmark => rcases hmark with rfl | rfl <;> rfl

/-- What follows the whole part of a number ends it. -/
theorem IsDecimal.stops (h : IsDecimal Char.isDigit whole fraction exponent) :
    ∀ c ∈ (fraction ++ exponent).head?, c ≠ '_' ∧ c.isDigit = false := by
  cases h.isFraction with
  | absent => exact h.isExponent.stops
  | present =>
    intro c hc
    rw [← Option.some.inj hc]
    decide

theorem IsDecimal.takeWhile (h : IsDecimal Char.isDigit whole fraction exponent) :
    (whole ++ (fraction ++ exponent)).takeWhile Char.isDigit = whole := by
  rw [takeWhile_append_of_head fun c hc => (h.stops c hc).2]
  exact List.takeWhile_eq_self_iff.2 h.digits

theorem IsDecimal.dropWhile (h : IsDecimal Char.isDigit whole fraction exponent) :
    (whole ++ (fraction ++ exponent)).dropWhile Char.isDigit = fraction ++ exponent := by
  have hsplit := List.takeWhile_append_dropWhile (p := Char.isDigit) (l := whole ++ (fraction ++ exponent))
  rw [h.takeWhile] at hsplit
  exact List.append_cancel_left hsplit

theorem IsDecimal.exists_plainNumeral? (h : IsDecimal Char.isDigit whole fraction exponent) (hw : whole ≠ []) :
    ∃ v n, plainNumeral? (whole ++ (fraction ++ exponent)) = some ⟨.number v, n, []⟩ := by
  rw [plainNumeral?, digits?_of_isDigit hw h.digits h.stops]
  simp only [Option.bind_eq_bind, Option.bind_some]
  by_cases hrest : fraction ++ exponent = []
  · rw [hrest]
    exact ⟨_, _, rfl⟩
  · rw [if_pos (goesOn_of_ne_nil h.isFraction h.isExponent hrest)]
    exact exists_decimal? h.isFraction h.isExponent _ _

theorem IsDecimal.exists_leadingZero? (h : IsDecimal Char.isDigit whole fraction exponent)
    (hoctal : whole.all isOctal = true → fraction ++ exponent = []) :
    ∃ v n, leadingZero? (whole ++ (fraction ++ exponent)) = some ⟨.number v, n, []⟩ := by
  simp only [leadingZero?, h.takeWhile, List.drop_left]
  split
  · next hall =>
    rw [hoctal hall]
    exact ⟨_, _, rfl⟩
  · by_cases hrest : fraction ++ exponent = []
    · rw [hrest]
      exact ⟨_, _, rfl⟩
    · rw [if_pos (goesOn_of_ne_nil h.isFraction h.isExponent hrest)]
      exact exists_decimal? h.isFraction h.isExponent _ _

theorem numeral?_leadingZero (hc : c.isDigit = true) (cs : List Char) :
    numeral? ('0' :: c :: cs) = leadingZero? ('0' :: c :: cs) := by
  have hx {d : Char} (hd : d.isDigit = false) : c ≠ d := ne_of_isDigit hc hd
  simp [numeral?, hc, hx (d := 'x') rfl, hx (d := 'X') rfl, hx (d := 'o') rfl, hx (d := 'O') rfl,
    hx (d := 'b') rfl, hx (d := 'B') rfl]

theorem numeral?_zero_goesOn (h : goesOn cs = true) : numeral? ('0' :: cs) = decimal? [0] 1 cs := by
  cases cs with
  | nil => cases h
  | cons c cs =>
    have hc : c = '.' ∨ c = 'e' ∨ c = 'E' := by simpa [goesOn, or_assoc] using h
    rcases hc with rfl | rfl | rfl <;> simp [numeral?, goesOn]

/-- A decimal number of old programs is read to its end. -/
theorem IsDecimal.exists_number? (h : IsDecimal Char.isDigit whole fraction exponent)
    (hzero : ZeroOk true whole (fraction ++ exponent)) :
    ∃ v n, number? (whole ++ (fraction ++ exponent)) = some ⟨.number v, n, []⟩ := by
  suffices hnumeral : ∃ v n, numeral? (whole ++ (fraction ++ exponent)) = some ⟨.number v, n, []⟩ by
    obtain ⟨v, n, hread⟩ := hnumeral
    exact ⟨v, n, by rw [number?, hread]; rfl⟩
  cases whole with
  | nil =>
    obtain ⟨d, ds, rfl⟩ := h.some_digit rfl
    have hdigits : ∀ x ∈ d :: ds, x.isDigit = true := by
      cases h.isFraction with
      | present hdigits => exact hdigits
    have hread := digits?_of_isDigit (List.cons_ne_nil d ds) hdigits h.isExponent.stops
    obtain ⟨v, n, hdecimal⟩ := exists_decimal? h.isFraction h.isExponent [] 0
    refine ⟨v, n, ?_⟩
    rw [List.nil_append, ← hdecimal]
    simp only [List.cons_append, numeral?] at hread ⊢
    simp [hread]
  | cons c w =>
    by_cases hc : c = '0'
    · subst hc
      cases w with
      | nil =>
        by_cases hrest : fraction ++ exponent = []
        · rw [hrest]
          exact ⟨_, _, rfl⟩
        · rw [List.singleton_append, numeral?_zero_goesOn (goesOn_of_ne_nil h.isFraction h.isExponent hrest)]
          exact exists_decimal? h.isFraction h.isExponent _ _
      | cons d w =>
        have hoctal : ('0' :: d :: w).all isOctal = true → fraction ++ exponent = [] :=
          (((hzero rfl).resolve_left (by simp)).2)
        rw [List.cons_append, List.cons_append, numeral?_leadingZero (h.digits d (by simp))]
        exact h.exists_leadingZero? hoctal
    · rw [numeral?_of_head]
      · exact h.exists_plainNumeral? (List.cons_ne_nil c w)
      · rintro x hx
        obtain rfl := Option.some.inj hx
        exact ⟨hc, ne_of_isDigit (h.digits c (List.mem_cons_self ..)) rfl⟩

/-- A decimal number that is read to its end is one of old programs. -/
theorem IsDecimal.zeroOk_of_number? {l : Lexeme} (h : IsDecimal Char.isDigit whole fraction exponent)
    (hread : number? (whole ++ (fraction ++ exponent)) = some l) (hend : l.rest = []) :
    ZeroOk true whole (fraction ++ exponent) := by
  intro hhead
  rcases whole with _ | ⟨c, _ | ⟨d, w⟩⟩
  · cases hhead
  · exact .inl (by rw [Option.some.inj hhead])
  · refine .inr ⟨rfl, fun hoctal => ?_⟩
    obtain rfl := Option.some.inj hhead
    simp only [number?, Option.bind_eq_bind, Option.bind_eq_some_iff, Option.guard_eq_some', Option.pure_def,
      Option.some.injEq] at hread
    obtain ⟨l', hread, -, -, rfl⟩ := hread
    rw [List.cons_append, List.cons_append, numeral?_leadingZero (h.digits d (by simp))] at hread
    rw [← List.cons_append, ← List.cons_append, leadingZero?, h.takeWhile, if_pos hoctal] at hread
    rw [← hend, ← Option.some.inj hread]
    exact List.drop_left.symm

end Relabel.Script
