import Mathlib.Data.List.TakeWhile
import Relabel.Proofs.Script.Lexing

/-!
# Numbers in front of a text

A number that is one token by itself is the same token in front of a comma, a closing mark, a
semicolon, a space or a line end. The decimal digits of a whole number are that number.
-/

namespace Relabel.Script
variable {b n base : Nat} {c quote : Char} {cs rest : List Char} {p : Char → Bool}

/-- A text in front of which a literal ends. -/
def Stops (rest : List Char) : Prop :=
  ∀ c ∈ rest.head?, c ∈ [',', ')', ']', ';', ' ', '\n']

/-- A token in front of some more text. -/
def Lexeme.before (l : Lexeme) (rest : List Char) : Lexeme :=
  { l with rest := l.rest ++ rest }

theorem Stops.head (h : Stops rest) (hp : ∀ c ∈ [',', ')', ']', ';', ' ', '\n'], p c = false) :
    ∀ c ∈ rest.head?, p c = false :=
  fun c hc => hp c (h c hc)

theorem takeWhile_append_of_head (h : ∀ c ∈ rest.head?, p c = false) :
    (cs ++ rest).takeWhile p = cs.takeWhile p := by
  rw [List.takeWhile_append]
  split
  · next hall =>
    have hrest : rest.takeWhile p = [] := by
      cases rest with
      | nil => rfl
      | cons c rest => rw [List.takeWhile_cons, h c rfl]; rfl
    have htake : cs.takeWhile p = cs := (List.takeWhile_prefix p).eq_of_length hall
    rw [hrest, List.append_nil, htake]
  · rfl

/-! ### Numbers -/

/-- Digits in front of some more text. -/
def Digits.before (ds : Digits) (rest : List Char) : Digits :=
  { ds with rest := ds.rest ++ rest }

theorem digitOf?_stop (h : c ∈ [',', ')', ']', ';', ' ', '\n']) (base : Nat) : digitOf? base c = none := by
  have hnone : Text.hexDigit? c = none := by
    simp only [List.mem_cons, List.not_mem_nil, or_false] at h
    rcases h with rfl | rfl | rfl | rfl | rfl | rfl <;> rfl
  simp [digitOf?, hnone]

theorem digitRun?_append (h : Stops rest) :
    digitRun? base (cs ++ rest) = (digitRun? base cs).map (·.before rest) := by
  have hrun : (cs ++ rest).takeWhile (fun c => c == '_' || (digitOf? base c).isSome) =
      cs.takeWhile fun c => c == '_' || (digitOf? base c).isSome := by
    refine takeWhile_append_of_head fun c hc => ?_
    have hc := h c hc
    rw [digitOf?_stop hc, Option.isSome_none, Bool.or_false, beq_eq_false_iff_ne]
    rintro rfl
    exact absurd hc (by decide)
  have hdrop : (cs ++ rest).drop (cs.takeWhile fun c => c == '_' || (digitOf? base c).isSome).length =
      cs.drop (cs.takeWhile fun c => c == '_' || (digitOf? base c).isSome).length ++ rest :=
    List.drop_append_of_le_length (List.takeWhile_prefix _).length_le
  simp only [digitRun?, hrun, hdrop]
  cases hg : (cs.takeWhile fun c => c == '_' || (digitOf? base c).isSome).head? != some '_' &&
    separatesWell (cs.takeWhile fun c => c == '_' || (digitOf? base c).isSome) <;> simp [Digits.before]

theorem digits?_append (h : Stops rest) :
    digits? base (cs ++ rest) = (digits? base cs).map (·.before rest) := by
  rw [digits?, digits?, digitRun?_append h]
  cases digitRun? base cs with
  | none => rfl
  | some ds =>
    cases hg : ds.values.isEmpty <;> simp [Digits.before]

theorem wholeNumber_before (h : Stops rest) (k : Nat) (ds : Digits) :
    wholeNumber base k (ds.before rest) = (wholeNumber base k ds).before rest := by
  obtain ⟨values, length, r⟩ := ds
  cases r with
  | nil =>
    cases rest with
    | nil => rfl
    | cons c rest =>
      have hc : c ≠ 'n' := by
        rintro rfl
        exact absurd (h 'n' rfl) (by decide)
      simp [wholeNumber, Digits.before, Lexeme.before, hc]
  | cons x r =>
    by_cases hx : x = 'n' <;> simp [wholeNumber, Digits.before, Lexeme.before, hx]

theorem Stops.ne (h : Stops (c :: rest)) {x : Char} (hx : x ∉ [',', ')', ']', ';', ' ', '\n']) : c ≠ x := by
  rintro rfl
  exact hx (h c rfl)

@[simp] theorem value_before (ds : Digits) : (ds.before rest).value = ds.value := rfl

theorem exponent?_append (h : Stops rest) :
    exponent? (cs ++ rest) = (exponent? cs).map fun (k, size, r) => (k, size, r ++ rest) := by
  have hdigits : ∀ (cs : List Char) (f : Digits → Int × Nat), (∀ ds, f (ds.before rest) = f ds) →
      ((digits? 10 (cs ++ rest)).map fun ds => ((f ds).1, (f ds).2, ds.rest)) =
        ((digits? 10 cs).map fun ds => ((f ds).1, (f ds).2, ds.rest)).map
          fun (k, size, r) => (k, size, r ++ rest) := by
    intro cs f hf
    rw [digits?_append h]
    cases digits? 10 cs with
    | none => rfl
    | some ds =>
      simp only [Option.map_some, hf]
      rfl
  cases cs with
  | nil =>
    cases rest with
    | nil => rfl
    | cons c rest => simp [exponent?, h.ne (x := 'e') (by decide), h.ne (x := 'E') (by decide)]
  | cons c cs =>
    by_cases hc : (decide (c = 'e') || decide (c = 'E')) = true
    · have hplain := hdigits cs (fun ds => (ds.value, ds.length + 1)) fun _ => rfl
      rw [List.cons_append]
      simp only [exponent?, if_pos hc]
      cases cs with
      | nil =>
        cases rest with
        | nil => simp [digits?, digitRun?]
        | cons r rest =>
          have hplus : r ≠ '+' := h.ne (by decide)
          have hminus : r ≠ '-' := h.ne (by decide)
          simpa [hplus, hminus] using hplain
      | cons x cs =>
        by_cases hplus : x = '+'
        · subst hplus
          exact hdigits cs (fun ds => (ds.value, ds.length + 2)) fun _ => rfl
        by_cases hminus : x = '-'
        · subst hminus
          exact hdigits cs (fun ds => (-(ds.value : Int), ds.length + 2)) fun _ => rfl
        simpa [hplus, hminus] using hplain
    · simp [exponent?, hc]

/-- A number whose digits have been read, from its exponent on. -/
def scaled? (whole fraction : List Nat) (k : Nat) (cs : List Char) : Option Lexeme :=
  (exponent? cs).map fun (exponent, size, rest) =>
    ⟨.number (.ofNumeral
      ⟨(whole ++ fraction).foldl (fun n d => n * 10 + d) 0, exponent - fraction.length⟩), k + size, rest⟩

theorem decimal?_dot (whole : List Nat) (k : Nat) (cs : List Char) :
    decimal? whole k ('.' :: cs) =
      (digitRun? 10 cs).bind fun ds => scaled? whole ds.values (k + (ds.length + 1)) ds.rest := by
  simp only [decimal?]
  cases digitRun? 10 cs with
  | none => rfl
  | some ds =>
    simp only [Option.map_some, Option.bind_eq_bind, Option.bind_some, scaled?]
    cases exponent? ds.rest <;> rfl

theorem decimal?_of_ne (whole : List Nat) (k : Nat) (h : ∀ c ∈ cs.head?, c ≠ '.') :
    decimal? whole k cs = scaled? whole [] k cs := by
  rw [decimal?]
  · simp only [Option.bind_eq_bind, Option.bind_some, scaled?]
    cases exponent? cs <;> rfl
  · rintro cs rfl
    exact h '.' rfl rfl

theorem scaled?_append (h : Stops rest) (whole fraction : List Nat) (k : Nat) :
    scaled? whole fraction k (cs ++ rest) = (scaled? whole fraction k cs).map (·.before rest) := by
  rw [scaled?, scaled?, exponent?_append h]
  cases exponent? cs <;> rfl

theorem decimal?_append (h : Stops rest) (whole : List Nat) (k : Nat) :
    decimal? whole k (cs ++ rest) = (decimal? whole k cs).map (·.before rest) := by
  by_cases hdot : ∀ c ∈ cs.head?, c ≠ '.'
  · rw [decimal?_of_ne whole k hdot, ← scaled?_append h]
    refine decimal?_of_ne whole k fun c hc => ?_
    cases cs with
    | nil =>
      rintro rfl
      exact absurd (h '.' hc) (by decide)
    | cons x cs => exact hdot c hc
  · push Not at hdot
    obtain ⟨c, hc, rfl⟩ := hdot
    obtain ⟨cs, rfl⟩ : ∃ ds, cs = '.' :: ds := ⟨cs.tail, (List.cons_head?_tail hc).symm⟩
    rw [List.cons_append, decimal?_dot, decimal?_dot, digitRun?_append h]
    cases digitRun? 10 cs with
    | none => rfl
    | some ds => exact scaled?_append h whole ds.values _

theorem goesOn_append (h : Stops rest) : goesOn (cs ++ rest) = goesOn cs := by
  cases cs with
  | nil =>
    cases rest with
    | nil => rfl
    | cons c rest => simp [goesOn, h.ne (x := '.'), h.ne (x := 'e'), h.ne (x := 'E')]
  | cons x cs => rfl

theorem leadingZero?_append (h : Stops rest) :
    leadingZero? (cs ++ rest) = (leadingZero? cs).map (·.before rest) := by
  have hrun : (cs ++ rest).takeWhile Char.isDigit = cs.takeWhile Char.isDigit :=
    takeWhile_append_of_head (h.head (by simp))
  have hdrop : (cs ++ rest).drop (cs.takeWhile Char.isDigit).length =
      cs.drop (cs.takeWhile Char.isDigit).length ++ rest :=
    List.drop_append_of_le_length (List.takeWhile_prefix _).length_le
  simp only [leadingZero?, hrun, hdrop, goesOn_append h, decimal?_append h]
  split
  · rfl
  · split <;> rfl

/-- A decimal number that begins with neither a zero nor a point. -/
def plainNumeral? (cs : List Char) : Option Lexeme := do
  let ds ← digits? 10 cs
  if goesOn ds.rest then decimal? ds.values ds.length ds.rest
  else return wholeNumber 10 0 ds

theorem plainNumeral?_append (h : Stops rest) :
    plainNumeral? (cs ++ rest) = (plainNumeral? cs).map (·.before rest) := by
  rw [plainNumeral?, plainNumeral?, digits?_append h]
  cases digits? 10 cs with
  | none => rfl
  | some ds =>
    have hgoes : goesOn (ds.before rest).rest = goesOn ds.rest := goesOn_append h
    simp only [Option.map_some, Option.bind_eq_bind, Option.bind_some, hgoes]
    split
    · exact decimal?_append h ds.values ds.length
    · rw [wholeNumber_before h]
      rfl

theorem numeral?_of_head (h : ∀ c ∈ cs.head?, c ≠ '0' ∧ c ≠ '.') : numeral? cs = plainNumeral? cs := by
  rw [numeral?, plainNumeral?]
  · rintro c cs rfl
    exact (h '0' rfl).1 rfl
  · rintro cs rfl
    exact (h '.' rfl).2 rfl

theorem numeral?_zero (h : Stops rest) :
    numeral? ('0' :: rest) = (numeral? ['0']).map (·.before rest) := by
  cases rest with
  | nil => rfl
  | cons c rest =>
    have hc := h c rfl
    simp only [List.mem_cons, List.not_mem_nil, or_false] at hc
    rcases hc with rfl | rfl | rfl | rfl | rfl | rfl <;> rfl

theorem numeral?_zero_append (h : Stops rest) :
    numeral? ('0' :: c :: cs ++ rest) = (numeral? ('0' :: c :: cs)).map (·.before rest) := by
  have hx : ∀ base, (digits? base (cs ++ rest)).map (wholeNumber base 2) =
      ((digits? base cs).map (wholeNumber base 2)).map (·.before rest) := by
    intro base
    rw [digits?_append h]
    cases digits? base cs with
    | none => rfl
    | some ds => exact congrArg some (wholeNumber_before h 2 ds)
  have hoctal := @leadingZero?_append ('0' :: c :: cs) rest h
  have hdecimal := @decimal?_append (c :: cs) rest h [0] 1
  have hgoes := @goesOn_append (c :: cs) rest h
  have hwhole := @wholeNumber_before 10 rest h 1 ⟨[0], 0, c :: cs⟩
  simp only [List.cons_append] at hoctal hdecimal hgoes ⊢
  simp only [numeral?, hx, hoctal, hdecimal, hgoes]
  split
  · rfl
  split
  · rfl
  split
  · rfl
  split
  · rfl
  split
  · rfl
  split
  · rfl
  · exact congrArg some hwhole

theorem numeral?_point_append (h : Stops rest) :
    numeral? ('.' :: cs ++ rest) = (numeral? ('.' :: cs)).map (·.before rest) := by
  have hdecimal := @decimal?_append ('.' :: cs) rest h [] 0
  rw [List.cons_append] at hdecimal ⊢
  simp only [numeral?, digits?_append h, Option.isSome_map, hdecimal]
  cases (digits? 10 cs).isSome <;> rfl

theorem numeral?_append (h : Stops rest) :
    numeral? (cs ++ rest) = (numeral? cs).map (·.before rest) := by
  by_cases hhead : ∀ c ∈ cs.head?, c ≠ '0' ∧ c ≠ '.'
  · rw [numeral?_of_head hhead, ← plainNumeral?_append h]
    refine numeral?_of_head fun c hc => ?_
    cases cs with
    | nil => constructor <;> (rintro rfl; exact absurd (h _ hc) (by decide))
    | cons x cs => exact hhead c hc
  · push Not at hhead
    obtain ⟨c, hc, hzero⟩ := hhead
    obtain ⟨cs, rfl⟩ : ∃ ds, cs = c :: ds := ⟨cs.tail, (List.cons_head?_tail hc).symm⟩
    by_cases hdot : c = '.'
    · rw [hdot]
      exact numeral?_point_append h
    have hc : c = '0' := by
      by_contra hne
      exact hdot (hzero hne)
    rw [hc]
    cases cs with
    | nil => exact numeral?_zero h
    | cons x cs => exact numeral?_zero_append h

/-- A number is read in front of a stop too. -/
theorem number?_append {l : Lexeme} (h : number? cs = some l) (hrest : Stops rest) :
    number? (cs ++ rest) = some (l.before rest) := by
  cases hn : numeral? cs with
  | none => simp [number?, hn] at h
  | some l' =>
    simp only [number?, hn, Option.bind_eq_bind, Option.bind_some, Option.guard_eq_some', Option.bind_eq_some_iff,
      Option.pure_def, Option.some.injEq] at h
    obtain ⟨-, hhead, rfl⟩ := h
    have hhead' : ((l'.before rest).rest.head?.any fun c => startsName c || c.isDigit) = false := by
      cases hl : l'.rest with
      | cons c cs => simpa [Lexeme.before, hl] using hhead
      | nil =>
        rw [Lexeme.before, hl, List.nil_append]
        cases rest with
        | nil => rfl
        | cons c rest =>
          have hc := hrest c rfl
          rw [List.head?_cons, Option.any_some]
          simp only [List.mem_cons, List.not_mem_nil, or_false] at hc
          rcases hc with rfl | rfl | rfl | rfl | rfl | rfl <;> decide
    simp [number?, numeral?_append hrest, hn, hhead']

/-! ### Whole numbers -/

theorem digitOf?_digitChar {d : Nat} (h : d < 10) :
    digitOf? 10 d.digitChar = some d ∧ d.digitChar ≠ '.' ∧ (d ≠ 0 → d.digitChar ≠ '0') := by
  have hall : ∀ d < 10, digitOf? 10 d.digitChar = some d ∧ d.digitChar ≠ '.' ∧
      (d ≠ 0 → d.digitChar ≠ '0') := by decide
  exact hall d h

/-- The decimal digits of a number are digits and spell it; the first one is no zero. -/
theorem toDigits_spec (k : Nat) :
    (∀ c ∈ Nat.toDigits 10 k, (digitOf? 10 c).isSome = true) ∧
      ((Nat.toDigits 10 k).filterMap (digitOf? 10)).foldl (fun n d => n * 10 + d) 0 = k ∧
      ∀ c ∈ (Nat.toDigits 10 k).head?, c ≠ '.' ∧ (k ≠ 0 → c ≠ '0') := by
  induction k using Nat.strong_induction_on with
  | h k ih =>
    rw [Nat.toDigits_eq_if (by decide)]
    split
    · next hk =>
      obtain ⟨hdigit, hdot, hzero⟩ := digitOf?_digitChar hk
      refine ⟨?_, by simp [hdigit], ?_⟩
      · intro c hc
        rw [List.mem_singleton.1 hc, hdigit]
        rfl
      · intro c hc
        rw [← Option.some.inj hc]
        exact ⟨hdot, hzero⟩
    · next hk =>
      obtain ⟨hsome, hvalue, hhead⟩ := ih (k / 10) (Nat.div_lt_self (by omega) (by decide))
      obtain ⟨hdigit, -, -⟩ := digitOf?_digitChar (Nat.mod_lt k (by decide : 0 < 10))
      refine ⟨?_, ?_, ?_⟩
      · intro c hc
        rcases List.mem_append.1 hc with hc | hc
        · exact hsome c hc
        · rw [List.mem_singleton.1 hc, hdigit]
          rfl
      · rw [List.filterMap_append, List.foldl_append, hvalue]
        simp only [List.filterMap_cons, hdigit, List.filterMap_nil, List.foldl_cons, List.foldl_nil]
        omega
      · intro c hc
        rw [List.head?_append_of_ne_nil _ Nat.toDigits_ne_nil] at hc
        obtain ⟨hdot, hzero⟩ := hhead c hc
        exact ⟨hdot, fun _ => hzero (by omega)⟩

theorem separatesWell_of_ne (h : ∀ c ∈ cs, c ≠ '_') : separatesWell cs = true := by
  induction cs with
  | nil => rfl
  | cons c cs ih =>
    have hc := h c (List.mem_cons_self ..)
    have := ih fun x hx => h x (List.mem_cons_of_mem c hx)
    simpa [separatesWell, hc] using this

/-- Digits in front of something else. -/
theorem digitRun?_of_digits {ds : List Char} (hds : ∀ c ∈ ds, (digitOf? base c).isSome = true)
    (hrest : ∀ c ∈ rest.head?, (c == '_' || (digitOf? base c).isSome) = false) :
    digitRun? base (ds ++ rest) = some ⟨ds.filterMap (digitOf? base), ds.length, rest⟩ := by
  have htake : (ds ++ rest).takeWhile (fun c => c == '_' || (digitOf? base c).isSome) = ds := by
    rw [takeWhile_append_of_head hrest]
    refine List.takeWhile_eq_self_iff.2 fun c hc => ?_
    rw [hds c hc, Bool.or_true]
  have hunderscore : ∀ c ∈ ds, c ≠ '_' := by
    rintro c hc rfl
    have hnone : digitOf? base '_' = none := rfl
    have := hds _ hc
    rw [hnone] at this
    cases this
  have hhead : (ds.head? != some '_') = true := by
    rw [bne_iff_ne]
    intro h
    exact hunderscore '_' (List.mem_of_head? h) rfl
  simp [digitRun?, htake, hhead, separatesWell_of_ne hunderscore]

theorem digits?_of_digits {ds : List Char} (hne : ds ≠ []) (hds : ∀ c ∈ ds, (digitOf? base c).isSome = true)
    (hrest : ∀ c ∈ rest.head?, (c == '_' || (digitOf? base c).isSome) = false) :
    digits? base (ds ++ rest) = some ⟨ds.filterMap (digitOf? base), ds.length, rest⟩ := by
  have hvalues : (ds.filterMap (digitOf? base)).isEmpty = false := by
    obtain ⟨c, ds, rfl⟩ := List.exists_cons_of_ne_nil hne
    obtain ⟨d, hd⟩ := Option.isSome_iff_exists.1 (hds c (List.mem_cons_self ..))
    rw [List.filterMap_cons, hd]
    rfl
  rw [digits?, digitRun?_of_digits hds hrest]
  simp only [Option.bind_eq_bind, Option.bind_some, hvalues]
  rfl

theorem digits?_toDigits (k : Nat) :
    digits? 10 (Nat.toDigits 10 k) =
      some ⟨(Nat.toDigits 10 k).filterMap (digitOf? 10), (Nat.toDigits 10 k).length, []⟩ := by
  have hend : ∀ c ∈ ([] : List Char).head?, (c == '_' || (digitOf? 10 c).isSome) = false := by simp
  have h := digits?_of_digits Nat.toDigits_ne_nil (toDigits_spec k).1 hend
  rwa [List.append_nil] at h

/-- The double that the digits of a whole number are read as. -/
def wholeDouble (k : Nat) : Decimal.Double :=
  .ofDigits 10 (exactDigits 10) ((Nat.toDigits 10 k).filterMap (digitOf? 10))

/-- A whole number of at most nineteen digits is read as the double next to it. -/
theorem wholeDouble_eq {k : Nat} (hk : k < 10 ^ 19) : wholeDouble k = .ofNat k := by
  obtain ⟨-, hvalue, -⟩ := toDigits_spec k
  have hlength : ((Nat.toDigits 10 k).filterMap (digitOf? 10)).length ≤ exactDigits 10 :=
    Nat.le_trans (List.length_filterMap_le ..) ((Nat.length_toDigits_le_iff (by decide) (by decide)).2 hk)
  rw [wholeDouble, Decimal.Double.ofDigits, if_pos hlength, hvalue]

theorem number?_toDigits (k : Nat) :
    ∃ size, number? (Nat.toDigits 10 k) = some ⟨.number (wholeDouble k), size, []⟩ := by
  obtain ⟨-, -, hhead⟩ := toDigits_spec k
  have hplain : plainNumeral? (Nat.toDigits 10 k) =
      some ⟨.number (wholeDouble k), 0 + (Nat.toDigits 10 k).length, []⟩ := by
    rw [plainNumeral?, digits?_toDigits]
    rfl
  have hnumeral : numeral? (Nat.toDigits 10 k) = plainNumeral? (Nat.toDigits 10 k) := by
    by_cases hzero : k = 0
    · subst hzero
      rfl
    · exact numeral?_of_head fun c hc => ⟨(hhead c hc).2 hzero, (hhead c hc).1⟩
  exact ⟨_, by rw [number?, hnumeral, hplain]; rfl⟩

theorem lexeme?_toDigits (k : Nat) (hrest : Stops rest) (b : Nat) :
    ∃ size, lexeme? b (Nat.toDigits 10 k ++ rest) = some ⟨.number (wholeDouble k), size, rest⟩ := by
  obtain ⟨size, hsize⟩ := number?_toDigits k
  obtain ⟨c, cs, hcs⟩ := List.exists_cons_of_ne_nil (@Nat.toDigits_ne_nil k 10)
  have hmem : c ∈ Nat.toDigits 10 k := by
    rw [hcs]
    exact List.mem_cons_self ..
  have hdigit : c.isDigit = true := Nat.isDigit_of_mem_toDigits (by decide) (by decide) hmem
  refine ⟨size, ?_⟩
  have happend := number?_append hsize hrest
  rw [hcs, List.cons_append] at happend ⊢
  rw [lexeme?, if_pos (by rw [hdigit, Bool.true_or]), happend]
  rfl

end Relabel.Script
