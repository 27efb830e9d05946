import Relabel.Binding.Expression
import Relabel.Proofs.Fragment.Texts
import Relabel.Proofs.Script.Grammar

/-!
# Literals of bindings in code

A literal of a binding is copied into code as it stands. It is a literal there, too, if its string has no
line end of its own and no escape but those of the language, and if its number has ASCII digits and no
zero in front of them (`isScriptLiteral_iff`).
-/

namespace Relabel
open Text
open Script (StringTail IsQuote IsFraction IsExponent IsDecimal IsNumeral ZeroOk Token codePoint? number?
  lexeme? string? stringPoints? isLineEnd ne_of_isDigit)
open Fragment (literal? plainLiteral?)

variable {legacy : Bool} {quote c : Char} {cs ds rest whole fraction exponent : List Char} {text : String}

/-- A string literal, or a decimal literal behind an optional sign. -/
def IsScriptLiteral (legacy : Bool) (text : String) : Prop :=
  (∃ quote cs, IsQuote quote ∧ text.toList = quote :: cs ∧ StringTail legacy quote cs) ∨
    ∃ sign cs, sign ∈ [[], ['+'], ['-']] ∧ text.toList = sign ++ cs ∧ IsNumeral legacy cs

/-! ### Strings -/

/-- Whether a backslash may stand in front of a character and what follows that. -/
def escapesWell (legacy : Bool) (c : Char) (cs : List Char) : Bool :=
  if c = 'x' then 2 ≤ cs.length && (hexNumber? (cs.take 2)).isSome
  else if c = 'u' then (codePoint? cs).isSome
  else if c.isDigit then legacy || (c == '0' && !cs.head?.any Char.isDigit)
  else true

/-- Whether a text has only escapes of the language, and line ends only behind a backslash. -/
def quotesWell (legacy : Bool) : List Char → Bool
  | '\\' :: '\r' :: '\n' :: cs => quotesWell legacy cs
  | '\\' :: c :: cs => escapesWell legacy c cs && quotesWell legacy cs
  | c :: cs => c != '\n' && c != '\r' && quotesWell legacy cs
  | [] => true

theorem quotesWell_of_ne (h : c ≠ '\\') (cs : List Char) :
    quotesWell legacy (c :: cs) = (c != '\n' && c != '\r' && quotesWell legacy cs) := by
  rw [quotesWell] <;> simp [h]

theorem quotesWell_escape (h : c = '\r' → ∀ ds, cs ≠ '\n' :: ds) :
    quotesWell legacy ('\\' :: c :: cs) = (escapesWell legacy c cs && quotesWell legacy cs) := by
  rw [quotesWell]
  exact fun ds hc hcs => h hc ds hcs

/-- A character that neither ends a line nor escapes anything. -/
def IsInline (c : Char) : Prop :=
  c ≠ '\\' ∧ c ≠ '\n' ∧ c ≠ '\r'

theorem quotesWell_append (hds : ∀ c ∈ ds, IsInline c) (cs : List Char) :
    quotesWell legacy (ds ++ cs) = quotesWell legacy cs := by
  induction ds with
  | nil => rfl
  | cons d ds ih =>
    obtain ⟨⟨hslash, hfeed, hreturn⟩, hds⟩ := List.forall_mem_cons.1 hds
    rw [List.cons_append, quotesWell_of_ne hslash, ih hds]
    simp [hfeed, hreturn]

theorem isInline_of_hexDigit? (h : (hexDigit? c).isSome = true) : IsInline c := by
  refine ⟨?_, ?_, ?_⟩ <;> rintro rfl <;> exact absurd h (by decide)

/-- A string of the grammar has no escapes and line ends but those of the language. -/
theorem quotesWell_of_stringTail (hquote : IsQuote quote) (h : StringTail legacy quote cs) :
    quotesWell legacy cs = true := by
  have hlineEnd : ∀ {c x : Char}, isLineEnd c = true → isLineEnd x = false → c ≠ x := by
    rintro c x hc hx rfl
    rw [hx] at hc
    cases hc
  have hhex : ∀ {ds : List Char} {n : Nat}, hexNumber? ds = some n → ∀ c ∈ ds, IsInline c := fun hn c hc =>
    isInline_of_hexDigit? (Script.isSome_of_hexNumber? hn c hc)
  induction h with
  | close =>
    obtain ⟨hslash, hfeed, hreturn⟩ := hquote.ne
    rw [quotesWell_of_ne hslash]
    simp [hfeed, hreturn, quotesWell]
  | plain hne hslash hfeed hreturn h ih =>
    rw [quotesWell_of_ne hslash, ih]
    simp [hfeed, hreturn]
  | @continued c cs hc h ih =>
    rw [quotesWell_escape, ih, Bool.and_true, escapesWell, if_neg (hlineEnd hc rfl), if_neg (hlineEnd hc rfl)]
    · split
      · next hdigit => exact absurd hdigit (by
          simp only [isLineEnd, Bool.or_eq_true, beq_iff_eq] at hc
          rcases hc with ((rfl | rfl) | rfl) | rfl <;> decide)
      · rfl
    · rintro - ds rfl
      cases ih
  | continuedPair h ih => exact ih
  | @escape c cs hx hu hdigit hend h ih =>
    rw [quotesWell_escape, ih, Bool.and_true, escapesWell, if_neg hx, if_neg hu, hdigit]
    · rfl
    · rintro rfl
      cases hend
  | @digit c cs hc hold h ih =>
    rw [quotesWell_escape (fun hreturn => absurd hreturn (ne_of_isDigit hc rfl)), ih, Bool.and_true, escapesWell,
      if_neg (ne_of_isDigit hc rfl), if_neg (ne_of_isDigit hc rfl), if_pos hc]
    rcases hold with rfl | ⟨rfl, hhead⟩
    · rfl
    · cases cs with
      | nil => simp
      | cons d cs => simp [hhead d rfl]
  | @hex a b n cs hn h ih =>
    rw [quotesWell_escape (by rintro ⟨⟩)]
    have hcs := @quotesWell_append legacy [a, b] (hhex hn) cs
    rw [List.cons_append, List.singleton_append] at hcs
    rw [hcs, ih]
    simp [escapesWell, hn]
  | @unit a b c d n cs hn h ih =>
    obtain ⟨_, _, _, hpoint, -⟩ := (StringTail.unit hn h).exists_codePoint?
    have hcs := @quotesWell_append legacy [a, b, c, d] (hhex hn) cs
    simp only [List.cons_append, List.nil_append] at hcs
    rw [quotesWell_escape (by rintro ⟨⟩), hcs, ih]
    simp [escapesWell, hpoint]
  | @point ds n cs hds hn hle h ih =>
    obtain ⟨_, _, _, hpoint, -⟩ := (StringTail.point hds hn hle h).exists_codePoint?
    have hcs : quotesWell legacy ('{' :: (ds ++ '}' :: cs)) = quotesWell legacy cs := by
      rw [quotesWell_of_ne (by decide), quotesWell_append (hhex hn), quotesWell_of_ne (by decide)]
      simp
    rw [quotesWell_escape (by rintro ⟨⟩), hcs, ih]
    simp [escapesWell, hpoint]

theorem stringBody_of_ne (h : c ≠ '\\') (quote : Char) (cs : List Char) :
    stringBody quote (c :: cs) = if c = quote then cs.isEmpty else stringBody quote cs := by
  rw [stringBody]
  · rw [bne_iff_ne.2 h, Bool.true_and]
  · exact fun _ _ hc => absurd hc h

theorem of_stringTail_hexDigits (hquote : IsQuote quote) (hds : ∀ c ∈ ds, (hexDigit? c).isSome = true)
    (h : StringTail legacy quote (ds ++ rest)) : StringTail legacy quote rest := by
  induction ds with
  | nil => exact h
  | cons d ds ih =>
    obtain ⟨hd, hds⟩ := List.forall_mem_cons.1 hds
    refine ih hds (h.of_cons ?_ (isInline_of_hexDigit? hd).1)
    rintro rfl
    rcases hquote with rfl | rfl <;> exact absurd hd (by decide)

/-- A string that a binding may have, and that has only escapes of the language, is one of the grammar. -/
theorem stringTail_of_quotesWell (hquote : IsQuote quote) (hbody : stringBody quote cs = true)
    (h : quotesWell legacy cs = true) : StringTail legacy quote cs := by
  fun_induction quotesWell legacy cs with
  | case1 cs ih =>
    have hfeed : stringBody quote ('\n' :: cs) = true := hbody
    rw [stringBody_of_ne (by decide), if_neg hquote.ne.2.1.symm] at hfeed
    exact .continuedPair (ih hfeed h)
  | case2 c cs hpair ih =>
    obtain ⟨hescape, h⟩ := Bool.and_eq_true_iff.1 h
    obtain ⟨hfeed, hbody⟩ := Bool.and_eq_true_iff.1 hbody
    have htail := ih hbody h
    rw [escapesWell] at hescape
    split at hescape
    · next hx =>
      subst hx
      match cs, hescape with
      | a :: b :: cs, hescape =>
        obtain ⟨n, hn⟩ := Option.isSome_iff_exists.1 (Bool.and_eq_true_iff.1 hescape).2
        exact .hex hn (@of_stringTail_hexDigits _ _ [a, b] cs hquote (Script.isSome_of_hexNumber? hn) htail)
    split at hescape
    · next hu =>
      subst hu
      obtain ⟨⟨k, n, rest⟩, hpoint⟩ := Option.isSome_iff_exists.1 hescape
      refine .of_codePoint? hpoint ?_
      rcases Script.codePoint?_eq_some hpoint with ⟨ds, -, hk, -, rfl⟩ | ⟨a, b, c, d, hk, rfl⟩
      · have hopen : '{' ≠ quote := by rcases hquote with rfl | rfl <;> decide
        have hclose : '}' ≠ quote := by rcases hquote with rfl | rfl <;> decide
        have hds := of_stringTail_hexDigits hquote (Script.isSome_of_hexNumber? hk) (htail.of_cons hopen (by decide))
        exact hds.of_cons hclose (by decide)
      · exact @of_stringTail_hexDigits _ _ [a, b, c, d] rest hquote (Script.isSome_of_hexNumber? hk) htail
    next hx hu =>
    cases hdigit : c.isDigit with
    | true =>
      rw [hdigit, if_pos rfl, Bool.or_eq_true, Bool.and_eq_true, beq_iff_eq] at hescape
      refine .digit hdigit (hescape.imp id fun hzero => ⟨hzero.1, fun d hd => ?_⟩) htail
      have hhead := hzero.2
      rw [Option.mem_def.1 hd] at hhead
      simpa using hhead
    | false =>
      cases hend : isLineEnd c with
      | true => exact .continued hend htail
      | false => exact .escape hx hu hdigit hend htail
  | case3 c cs hpair hescape ih =>
    have hslash : c ≠ '\\' := by
      rintro rfl
      cases cs with
      | nil => simp [stringBody, hquote.ne.1.symm] at hbody
      | cons d cs => exact hescape d cs rfl rfl
    rw [stringBody_of_ne hslash] at hbody
    simp only [Bool.and_eq_true, bne_iff_ne] at h
    obtain ⟨⟨hfeed, hreturn⟩, h⟩ := h
    split at hbody
    · next hc =>
      rw [List.isEmpty_iff.1 hbody, hc]
      exact .close
    · next hc => exact .plain hc hslash hfeed hreturn (ih hbody h)
  | case4 => cases hbody

/-! ### Numbers -/

theorem skipSign_spec (cs : List Char) :
    ∃ sign, sign ∈ [[], ['+'], ['-']] ∧ cs = sign ++ skipSign cs := by
  unfold skipSign
  split
  · exact ⟨['+'], by simp, rfl⟩
  · exact ⟨['-'], by simp, rfl⟩
  · exact ⟨[], by simp, rfl⟩

theorem isExponent_of_exponentOrEnd (h : exponentOrEnd cs = true) : IsExponent isDigit cs := by
  cases cs with
  | nil => exact .absent
  | cons c cs =>
    obtain ⟨sign, hsign, hcs⟩ := skipSign_spec cs
    simp only [exponentOrEnd, Bool.and_eq_true, Bool.or_eq_true, beq_iff_eq] at h
    obtain ⟨⟨hc, hne⟩, hdigits⟩ := h
    rw [hcs]
    exact .present hc hsign (by simpa using hne) (List.all_eq_true.1 hdigits)

theorem exists_takeWhile_eq_cons {p : Char → Bool} (h : cs.head?.any p = true) :
    ∃ c ds, cs.takeWhile p = c :: ds := by
  cases cs with
  | nil => cases h
  | cons c cs => exact ⟨c, cs.takeWhile p, List.takeWhile_cons_of_pos h⟩

/-- The parts of the number that a binding may have; its digits may be those of any script. -/
theorem exists_isDecimal (h : unsignedNumber cs = true) :
    ∃ whole fraction exponent, cs = whole ++ (fraction ++ exponent) ∧
      IsDecimal isDigit whole fraction exponent := by
  have hdigits (cs : List Char) : ∀ d ∈ cs.takeWhile isDigit, isDigit d = true := fun d => List.mem_takeWhile_imp
  have hwhole := List.takeWhile_append_dropWhile (p := isDigit) (l := cs)
  simp only [unsignedNumber] at h
  split at h
  · next hhead =>
    have hne : cs.takeWhile isDigit ≠ [] := by
      obtain ⟨c, ds, hds⟩ := exists_takeWhile_eq_cons hhead
      rw [hds]
      exact List.cons_ne_nil c ds
    split at h
    · next tail hrest =>
      have htail := List.takeWhile_append_dropWhile (p := isDigit) (l := tail)
      refine ⟨_, '.' :: tail.takeWhile isDigit, tail.dropWhile isDigit, ?_,
        hdigits cs, .present (hdigits tail), isExponent_of_exponentOrEnd h, fun hnil => absurd hnil hne⟩
      rw [List.cons_append, htail, ← hrest, hwhole]
    · exact ⟨_, [], _, by rw [List.nil_append, hwhole], hdigits cs, .absent, isExponent_of_exponentOrEnd h,
        fun hnil => absurd hnil hne⟩
  · next hhead =>
    have hnil : cs.takeWhile isDigit = [] := by
      cases cs with
      | nil => rfl
      | cons c cs => exact List.takeWhile_cons_of_neg hhead
    rw [hnil, List.nil_append] at hwhole
    split at h
    · next tail hrest =>
      obtain ⟨hfirst, hend⟩ := Bool.and_eq_true_iff.1 h
      have htail := List.takeWhile_append_dropWhile (p := isDigit) (l := tail)
      refine ⟨[], '.' :: tail.takeWhile isDigit, tail.dropWhile isDigit, ?_,
        by simp, .present (hdigits tail), isExponent_of_exponentOrEnd hend, fun _ => ?_⟩
      · rw [List.nil_append, List.cons_append, htail, ← hrest, hwhole]
      · obtain ⟨d, ds, hds⟩ := exists_takeWhile_eq_cons hfirst
        exact ⟨d, ds, by rw [hds]⟩
    · cases h

/-- Whether a number is written in ASCII, with no zero in front of it. -/
def numbersWell (legacy : Bool) (cs : List Char) : Bool :=
  cs.all (fun c => c.toNat < 128) &&
    decide (ZeroOk legacy (cs.takeWhile Char.isDigit) (cs.dropWhile Char.isDigit))

theorem isDigit_of_lt (hc : c.toNat < 128) (h : isDigit c = true) : c.isDigit = true := by
  have hnot : ¬ c.toNat ≥ 128 := by omega
  rw [isDigit, decide_eq_false hnot, Bool.false_and, Bool.or_false] at h
  exact h

/-- A number that a binding may have is one of the grammar exactly if it is written so. -/
theorem isNumeral_iff (h : unsignedNumber cs = true) : IsNumeral legacy cs ↔ numbersWell legacy cs = true := by
  simp only [numbersWell, Bool.and_eq_true, List.all_eq_true, decide_eq_true_eq]
  constructor
  · rintro ⟨whole, fraction, exponent, rfl, hdecimal, hzero⟩
    rw [hdecimal.takeWhile, hdecimal.dropWhile]
    exact ⟨hdecimal.toNat_lt, hzero⟩
  · rintro ⟨hascii, hzero⟩
    obtain ⟨whole, fraction, exponent, rfl, hdecimal⟩ := exists_isDecimal h
    have hdecimal := hdecimal.mono fun c hc => isDigit_of_lt (hascii c hc)
    rw [hdecimal.takeWhile, hdecimal.dropWhile] at hzero
    exact ⟨whole, fraction, exponent, rfl, hdecimal, hzero⟩

/-! ### Literals -/

/-- Whether a literal of a binding is spelled as the language has it, string or number. -/
def spelledWell (legacy : Bool) (text : String) : Bool :=
  match text.toList with
  | '\'' :: cs => quotesWell legacy cs
  | '"' :: cs => quotesWell legacy cs
  | cs => numbersWell legacy (skipSign cs)

/-- How a number begins, whichever its digits are. -/
def BeginsNumber (digit : Char → Bool) (cs : List Char) : Prop :=
  ∃ c ds, cs = c :: ds ∧ (digit c = true ∨ c = '.' ∧ ds.head?.any digit = true)

theorem BeginsNumber.ne {digit : Char → Bool} (h : BeginsNumber digit (c :: cs)) {x : Char}
    (hx : digit x = false) (hpoint : x ≠ '.') : c ≠ x := by
  obtain ⟨c, ds, heq, hc⟩ := h
  obtain ⟨rfl, rfl⟩ := List.cons.inj heq
  rintro rfl
  rcases hc with hc | hc
  · rw [hx] at hc
    cases hc
  · exact hpoint hc.1

theorem beginsNumber_of_isNumeral (h : IsNumeral legacy cs) : BeginsNumber Char.isDigit cs := by
  obtain ⟨whole, fraction, exponent, rfl, hdecimal, -⟩ := h
  exact hdecimal.head

theorem beginsNumber_of_unsignedNumber (h : unsignedNumber cs = true) : BeginsNumber isDigit cs := by
  obtain ⟨whole, fraction, exponent, rfl, hdecimal⟩ := exists_isDecimal h
  exact hdecimal.head

theorem skipSign_append {sign : List Char} (hsign : sign ∈ [[], ['+'], ['-']]) (h : BeginsNumber Char.isDigit cs) :
    skipSign (sign ++ cs) = cs := by
  obtain ⟨c, ds, rfl, -⟩ := id h
  have hplus : c ≠ '+' := h.ne rfl (by decide)
  have hminus : c ≠ '-' := h.ne rfl (by decide)
  simp only [List.mem_cons, List.not_mem_nil, or_false] at hsign
  rcases hsign with rfl | rfl | rfl
  · simp [skipSign, hplus, hminus]
  · rfl
  · rfl

theorem skipSign_quote (hquote : IsQuote quote) (cs : List Char) : skipSign (quote :: cs) = quote :: cs := by
  rcases hquote with rfl | rfl <;> rfl

theorem not_beginsNumber_quote {digit : Char → Bool} (hdigit : digit quote = false) (hquote : IsQuote quote) :
    ¬ BeginsNumber digit (quote :: cs) :=
  fun h => h.ne hdigit (by rcases hquote with rfl | rfl <;> decide) rfl

theorem isScriptLiteral_quote (hquote : IsQuote quote) (htext : text.toList = quote :: cs) :
    IsScriptLiteral legacy text ↔ StringTail legacy quote cs := by
  constructor
  · rintro (⟨quote', cs', -, htext', htail⟩ | ⟨sign, cs', hsign, htext', hnumeral⟩)
    · rw [htext] at htext'
      obtain ⟨rfl, rfl⟩ := List.cons.inj htext'
      exact htail
    · have hbegins := beginsNumber_of_isNumeral hnumeral
      rw [← skipSign_append hsign hbegins, ← htext', htext, skipSign_quote hquote] at hbegins
      exact absurd hbegins (not_beginsNumber_quote hquote.isDigit hquote)
  · exact fun htail => .inl ⟨quote, cs, hquote, htext, htail⟩

theorem isDigit_quote (hquote : IsQuote quote) : isDigit quote = false := by
  rcases hquote with rfl | rfl <;> decide

theorem isScriptLiteral_number (h : unsignedNumber (skipSign text.toList) = true) :
    IsScriptLiteral legacy text ↔ IsNumeral legacy (skipSign text.toList) := by
  constructor
  · rintro (⟨quote, cs, hquote, htext, -⟩ | ⟨sign, cs, hsign, htext, hnumeral⟩)
    · rw [htext, skipSign_quote hquote] at h
      exact absurd (beginsNumber_of_unsignedNumber h) (not_beginsNumber_quote (isDigit_quote hquote) hquote)
    · rwa [htext, skipSign_append hsign (beginsNumber_of_isNumeral hnumeral)]
  · intro hnumeral
    obtain ⟨sign, hsign, htext⟩ := skipSign_spec text.toList
    exact .inr ⟨sign, _, hsign, htext, hnumeral⟩

theorem isSome_plainLiteral?_quote (hquote : IsQuote quote) :
    (plainLiteral? (quote :: cs)).isSome = true ↔ StringTail true quote cs := by
  have hlexeme : lexeme? (quote :: cs).length (quote :: cs) = string? quote (quote :: cs).length cs := by
    rcases hquote with rfl | rfl <;> simp [lexeme?]
  rw [← Script.stringPoints?_iff hquote (Nat.le_succ cs.length), plainLiteral?, hlexeme, string?,
    List.length_cons]
  cases stringPoints? quote (cs.length + 1) cs with
  | none => simp
  | some e =>
    obtain ⟨points, size, rest⟩ := e
    cases rest <;> simp

theorem isSome_plainLiteral?_number (h : unsignedNumber cs = true) :
    (plainLiteral? cs).isSome = true ↔ IsNumeral true cs := by
  constructor
  · intro hsome
    obtain ⟨a, ha⟩ := Option.isSome_iff_exists.1 hsome
    obtain ⟨l, hl, htoken, hend, -⟩ := Fragment.exists_lexeme_of_plainLiteral ha
    have hnumber : number? cs = some l := by
      have hbegins := beginsNumber_of_unsignedNumber h
      obtain ⟨c, ds, rfl, -⟩ := id hbegins
      rcases Script.lexeme?_literal hl htoken with ⟨-, hnumber⟩ | ⟨hquote, -⟩
      · exact hnumber
      · exact absurd hbegins (not_beginsNumber_quote (isDigit_quote hquote.symm) hquote.symm)
    obtain ⟨token, hcs, -, hascii⟩ := Script.plain_number? hnumber
    rw [hend, List.append_nil] at hcs
    obtain ⟨whole, fraction, exponent, rfl, hdecimal⟩ := exists_isDecimal h
    have hdecimal := hdecimal.mono fun c hc => isDigit_of_lt (hascii c (hcs ▸ hc))
    exact ⟨whole, fraction, exponent, rfl, hdecimal, hdecimal.zeroOk_of_number? hnumber hend⟩
  · intro hnumeral
    obtain ⟨c, ds, rfl, hc⟩ := beginsNumber_of_isNumeral hnumeral
    obtain ⟨whole, fraction, exponent, hcs, hdecimal, hzero⟩ := hnumeral
    obtain ⟨v, n, hnumber⟩ := hdecimal.exists_number? hzero
    have hhead : (c.isDigit || (c == '.' && ds.head?.any Char.isDigit)) = true := by simpa using hc
    rw [plainLiteral?, lexeme?, if_pos hhead, hcs, hnumber]
    rfl

theorem isSome_literal? (text : String) :
    (literal? text).isSome = (plainLiteral? (skipSign text.toList)).isSome := by
  rw [literal?]
  split
  · next cs htext =>
    rw [htext, Option.isSome_map]
    rfl
  · next cs htext =>
    rw [htext, Option.isSome_map]
    rfl
  · next cs hplus hminus =>
    rw [skipSign]
    · exact hplus
    · exact hminus

/-- A literal of a binding is a literal of the language exactly if it is spelled well; with the old forms, that
is also whether it is read as one. -/
theorem isScriptLiteral_iff (h : isLiteral text = true) :
    (∀ legacy, IsScriptLiteral legacy text ↔ spelledWell legacy text = true) ∧
      ((literal? text).isSome = true ↔ IsScriptLiteral true text) := by
  rw [isSome_literal?]
  have hstring {quote : Char} {cs : List Char} (hquote : IsQuote quote) (htext : text.toList = quote :: cs)
      (hbody : stringBody quote cs = true) :
      (∀ legacy, IsScriptLiteral legacy text ↔ quotesWell legacy cs = true) ∧
        ((plainLiteral? (skipSign text.toList)).isSome = true ↔ IsScriptLiteral true text) := by
    simp only [isScriptLiteral_quote hquote htext]
    rw [htext, skipSign_quote hquote]
    exact ⟨fun legacy => ⟨quotesWell_of_stringTail hquote, stringTail_of_quotesWell hquote hbody⟩,
      isSome_plainLiteral?_quote hquote⟩
  rw [isLiteral] at h
  split at h
  · next cs htext =>
    simp only [spelledWell, htext] at hstring ⊢
    exact hstring (.inl rfl) rfl h
  · next cs htext =>
    simp only [spelledWell, htext] at hstring ⊢
    exact hstring (.inr rfl) rfl h
  · next cs hsingle hdouble =>
    have hspelled (legacy : Bool) : spelledWell legacy text = numbersWell legacy (skipSign text.toList) := by
      rw [spelledWell]
      split
      · next htext => exact absurd htext (hsingle _)
      · next htext => exact absurd htext (hdouble _)
      · rfl
    simp only [hspelled, isScriptLiteral_number h]
    exact ⟨fun legacy => isNumeral_iff h, isSome_plainLiteral?_number h⟩

theorem isScriptLiteral_iff_three :
    (isLiteral "-1.5e3" = true ∧ IsScriptLiteral false "-1.5e3") ∧
      (isLiteral "01" = true ∧ ¬ IsScriptLiteral false "01" ∧ IsScriptLiteral true "01") ∧
      isLiteral "'\\x'" = true ∧ ¬ IsScriptLiteral true "'\\x'" ∧ (literal? "'\\x'").isSome = false := by
  have hnumber := @isScriptLiteral_iff "-1.5e3" (by decide)
  have hzero := @isScriptLiteral_iff "01" (by decide)
  have hescape := @isScriptLiteral_iff "'\\x'" (by decide)
  have hinvalid : ¬ IsScriptLiteral true "'\\x'" := by
    rw [hescape.1]
    decide
  refine ⟨⟨by decide, (hnumber.1 false).2 (by decide)⟩, ⟨by decide, ?_, (hzero.1 true).2 (by decide)⟩, by decide,
    hinvalid, Bool.eq_false_iff.2 (mt hescape.2.1 hinvalid)⟩
  rw [hzero.1]
  decide

end Relabel
