import Relabel.Proofs.Script.Literals
import Relabel.Proofs.Text.Boundary

/-!
# The bytes of tokens

Digits, escapes and flags are counted in characters, everything else in bytes. Either way a token stands on
the bytes that it tells, and the text after it is what is left (`takes_lexeme?`).
-/

namespace Relabel.Script
open Text

/-- The text `cs` is `n` bytes and then `rest`. -/
def Takes (n : Nat) (cs rest : List Char) : Prop :=
  ∃ token, cs = token ++ rest ∧ size token = n

variable {base k m n : Nat} {c quote : Char} {cs ds es rest : List Char} {p : Char → Bool} {l : Lexeme}

theorem length_le_size (cs : List Char) : cs.length ≤ size cs := by
  induction cs with
  | nil => exact Nat.le_refl 0
  | cons c cs ih =>
    have hpos := c.utf8Size_pos
    rw [List.length_cons, size_cons]
    omega

namespace Takes

theorem nil (cs : List Char) : Takes 0 cs cs := ⟨[], rfl, rfl⟩

theorem cons (h : Takes n cs rest) (c : Char) : Takes (c.utf8Size + n) (c :: cs) rest := by
  obtain ⟨token, rfl, rfl⟩ := h
  exact ⟨c :: token, rfl, rfl⟩

theorem trans (h : Takes m cs ds) (h' : Takes n ds rest) : Takes (m + n) cs rest := by
  obtain ⟨token, rfl, rfl⟩ := h
  obtain ⟨token', rfl, rfl⟩ := h'
  exact ⟨token ++ token', by rw [List.append_assoc], size_append token token'⟩

theorem of_eq (h : Takes m cs rest) (hmn : m = n) : Takes n cs rest := hmn ▸ h

/-- One more character that takes one byte. -/
theorem succ (h : Takes n cs rest) (hc : c.utf8Size = 1) : Takes (n + 1) (c :: cs) rest :=
  (h.cons c).of_eq (by rw [hc, Nat.add_comm])

theorem size_eq (h : Takes n cs rest) : n + size rest = size cs := by
  obtain ⟨token, rfl, rfl⟩ := h
  rw [size_append]

/-- Behind the beginning that is taken anyway. -/
theorem of_append {xs : List Char} (h : Takes n (xs ++ cs) rest) (hn : size xs ≤ n) :
    Takes (n - size xs) cs rest := by
  obtain ⟨token, heq, rfl⟩ := h
  rcases List.append_eq_append_iff.1 heq with ⟨ys, rfl, rfl⟩ | ⟨ys, rfl, rfl⟩
  · exact ⟨ys, rfl, by rw [size_append]; omega⟩
  · rw [size_append] at hn
    have hys : ys = [] := size_eq_zero.1 (by omega)
    rw [hys, List.append_nil]
    exact ⟨[], rfl, by rw [size_nil]; omega⟩

/-- What is taken besides the beginning that is taken anyway. -/
theorem exists_between (h : Takes m cs ds) (h' : Takes n cs es) (hmn : m ≤ n) :
    ∃ gone, ds = gone ++ es ∧ m + size gone = n := by
  obtain ⟨token, rfl, rfl⟩ := h
  obtain ⟨gone, hgone, hsize⟩ := h'.of_append hmn
  exact ⟨gone, hgone, by omega⟩

theorem unique (h : Takes n cs ds) (h' : Takes n cs es) : ds = es := by
  obtain ⟨gone, rfl, hgone⟩ := h.exists_between h' (Nat.le_refl n)
  rw [size_eq_zero.1 (show size gone = 0 by omega), List.nil_append]

theorem length_le (h : Takes n cs rest) : rest.length ≤ cs.length := by
  obtain ⟨token, rfl, -⟩ := h
  rw [List.length_append]
  omega

end Takes

theorem utf8Size_of_lt (h : c.toNat < 128) : c.utf8Size = 1 := by
  have hall : ∀ n < 128, (Char.ofNat n).utf8Size = 1 := by decide
  have hc := hall c.toNat h
  rwa [Char.ofNat_toNat] at hc

theorem size_eq_length (h : ∀ c ∈ cs, c.toNat < 128) : size cs = cs.length := by
  induction cs with
  | nil => rfl
  | cons c cs ih =>
    rw [size_cons, List.length_cons, utf8Size_of_lt (h c (List.mem_cons_self ..)),
      ih fun d hd => h d (List.mem_cons_of_mem c hd), Nat.add_comm]

/-- The text `cs` is `n` characters of one byte each and then `rest`. -/
def Plain (n : Nat) (cs rest : List Char) : Prop :=
  ∃ token, cs = token ++ rest ∧ token.length = n ∧ ∀ c ∈ token, c.toNat < 128

namespace Plain

theorem nil (cs : List Char) : Plain 0 cs cs := ⟨[], rfl, rfl, by simp⟩

theorem succ (h : Plain n cs rest) (hc : c.toNat < 128) : Plain (n + 1) (c :: cs) rest := by
  obtain ⟨token, rfl, rfl, htoken⟩ := h
  exact ⟨c :: token, rfl, rfl, List.forall_mem_cons.2 ⟨hc, htoken⟩⟩

theorem trans (h : Plain m cs ds) (h' : Plain n ds rest) : Plain (m + n) cs rest := by
  obtain ⟨token, rfl, rfl, htoken⟩ := h
  obtain ⟨token', rfl, rfl, htoken'⟩ := h'
  exact ⟨token ++ token', by rw [List.append_assoc], List.length_append,
    List.forall_mem_append.2 ⟨htoken, htoken'⟩⟩

theorem of_eq (h : Plain m cs rest) (hmn : m = n) : Plain n cs rest := hmn ▸ h

theorem takes (h : Plain n cs rest) : Takes n cs rest := by
  obtain ⟨token, rfl, rfl, htoken⟩ := h
  exact ⟨token, rfl, size_eq_length htoken⟩

end Plain

/-- A beginning whose characters take one byte each. -/
theorem plain_of_ascii {run : List Char} (h : run <+: cs) (hrun : ∀ c ∈ run, c.toNat < 128) :
    Plain run.length cs (cs.drop run.length) := by
  obtain ⟨rest, rfl⟩ := h
  exact ⟨run, by rw [List.drop_left], rfl, hrun⟩

theorem plain_takeWhile (h : ∀ c, p c = true → c.toNat < 128) (cs : List Char) :
    Plain (cs.takeWhile p).length cs (cs.drop (cs.takeWhile p).length) :=
  plain_of_ascii (List.takeWhile_prefix p) fun c hc => h c (List.mem_takeWhile_imp hc)

theorem toNat_of_hexDigit? (h : (hexDigit? c).isSome = true) : c.toNat < 128 := by
  have hle : ∀ d : Char, d.toNat < 128 → c ≤ d → c.toNat < 128 := by
    intro d hd hcd
    have : c.toNat ≤ d.toNat := UInt32.le_iff_toNat_le.1 hcd
    omega
  rw [hexDigit?] at h
  split at h
  · next hc => exact hle '9' (by decide) (of_decide_eq_true (Bool.and_eq_true_iff.1 hc).2)
  split at h
  · next hc => exact hle 'f' (by decide) (of_decide_eq_true (Bool.and_eq_true_iff.1 hc).2)
  split at h
  · next hc => exact hle 'F' (by decide) (of_decide_eq_true (Bool.and_eq_true_iff.1 hc).2)
  · cases h

theorem toNat_of_isDigit (h : c.isDigit = true) : c.toNat < 128 := by
  simp only [Char.isDigit, Bool.and_eq_true, decide_eq_true_eq] at h
  have : c.toNat ≤ 57 := UInt32.le_iff_toNat_le.1 h.2
  omega

/-! ### Numbers -/

theorem plain_digitRun? {d : Digits} (h : digitRun? base cs = some d) : Plain d.length cs d.rest := by
  simp only [digitRun?, Option.bind_eq_bind, Option.bind_eq_some_iff, Option.guard_eq_some', Option.pure_def,
    Option.some.injEq] at h
  obtain ⟨-, -, rfl⟩ := h
  refine plain_takeWhile (fun c hc => ?_) cs
  rw [Bool.or_eq_true, beq_iff_eq] at hc
  rcases hc with rfl | hc
  · decide
  · rw [digitOf?] at hc
    cases hhex : hexDigit? c with
    | none => simp [hhex] at hc
    | some v => exact toNat_of_hexDigit? (by rw [hhex]; rfl)

theorem plain_digits? {d : Digits} (h : digits? base cs = some d) : Plain d.length cs d.rest := by
  simp only [digits?, Option.bind_eq_bind, Option.bind_eq_some_iff, Option.guard_eq_some', Option.pure_def,
    Option.some.injEq] at h
  obtain ⟨d', hrun, -, -, rfl⟩ := h
  exact plain_digitRun? hrun

theorem plain_wholeNumber (base : Nat) {d : Digits} (h : Plain (k + d.length) cs d.rest) :
    Plain (wholeNumber base k d).size cs (wholeNumber base k d).rest := by
  rw [wholeNumber]
  split
  · next rest hrest =>
    rw [hrest] at h
    exact h.trans ((Plain.nil rest).succ (by decide))
  · exact h

theorem plain_exponent? {e : Int} (h : exponent? cs = some (e, n, rest)) : Plain n cs rest := by
  rw [exponent?.eq_def] at h
  split at h
  · next c cs =>
    split at h
    · next hc =>
      have hc : c.toNat < 128 := by
        rw [Bool.or_eq_true, decide_eq_true_eq, decide_eq_true_eq] at hc
        rcases hc with rfl | rfl <;> decide
      split at h <;> obtain ⟨d, hd, heq⟩ := Option.map_eq_some_iff.1 h <;>
        simp only [Prod.mk.injEq] at heq <;> obtain ⟨-, rfl, rfl⟩ := heq
      · exact ((plain_digits? hd).succ (by decide)).succ hc
      · exact ((plain_digits? hd).succ (by decide)).succ hc
      · exact (plain_digits? hd).succ hc
    · simp only [Option.some.injEq, Prod.mk.injEq] at h
      obtain ⟨-, rfl, rfl⟩ := h
      exact .nil _
  · simp only [Option.some.injEq, Prod.mk.injEq] at h
    obtain ⟨-, rfl, rfl⟩ := h
    exact .nil _

theorem plain_scaled? {whole fraction : List Nat} (h : scaled? whole fraction m ds = some l)
    (hds : Plain m cs ds) : Plain l.size cs l.rest := by
  obtain ⟨⟨e, n, r⟩, hexponent, rfl⟩ := Option.map_eq_some_iff.1 h
  exact hds.trans (plain_exponent? hexponent)

theorem plain_decimal? {whole : List Nat} (h : decimal? whole m ds = some l) (hds : Plain m cs ds) :
    Plain l.size cs l.rest := by
  by_cases hdot : ∀ c ∈ ds.head?, c ≠ '.'
  · rw [decimal?_of_ne whole m hdot] at h
    exact plain_scaled? h hds
  · push Not at hdot
    obtain ⟨c, hc, rfl⟩ := hdot
    obtain ⟨ds, rfl⟩ : ∃ xs, ds = '.' :: xs := ⟨ds.tail, (List.cons_head?_tail hc).symm⟩
    rw [decimal?_dot] at h
    obtain ⟨d, hd, h⟩ := Option.bind_eq_some_iff.1 h
    exact plain_scaled? h (hds.trans ((plain_digitRun? hd).succ (by decide)))

theorem plain_leadingZero? (h : leadingZero? cs = some l) : Plain l.size cs l.rest := by
  have hrun := plain_takeWhile (fun c => toNat_of_isDigit) cs
  simp only [leadingZero?] at h
  split at h
  · obtain rfl := Option.some.inj h
    exact hrun
  split at h
  · exact plain_decimal? h hrun
  · obtain rfl := Option.some.inj h
    exact hrun

theorem plain_plainNumeral? (h : plainNumeral? cs = some l) : Plain l.size cs l.rest := by
  simp only [plainNumeral?, Option.bind_eq_bind, Option.bind_eq_some_iff] at h
  obtain ⟨d, hd, h⟩ := h
  have hrun := plain_digits? hd
  split at h
  · exact plain_decimal? h hrun
  · obtain rfl := Option.some.inj h
    exact plain_wholeNumber 10 (hrun.of_eq (Nat.zero_add _).symm)

theorem plain_numeral? (h : numeral? cs = some l) : Plain l.size cs l.rest := by
  have hbased {base : Nat} {c : Char} {cs : List Char} (hc : c.toNat < 128)
      (h : (digits? base cs).map (wholeNumber base 2) = some l) : Plain l.size ('0' :: c :: cs) l.rest := by
    obtain ⟨d, hd, rfl⟩ := Option.map_eq_some_iff.1 h
    have hrun : Plain (d.length + 2) ('0' :: c :: cs) d.rest := ((plain_digits? hd).succ hc).succ (by decide)
    exact plain_wholeNumber base (hrun.of_eq (Nat.add_comm ..))
  rw [numeral?.eq_def] at h
  split at h
  · next c cs =>
    have hzero : Plain 1 ('0' :: c :: cs) (c :: cs) := (Plain.nil (c :: cs)).succ (by decide)
    split at h
    · next hc => exact hbased (by rcases hc with rfl | rfl <;> decide) h
    split at h
    · next hc => exact hbased (by rcases hc with rfl | rfl <;> decide) h
    split at h
    · next hc => exact hbased (by rcases hc with rfl | rfl <;> decide) h
    split at h
    · exact plain_leadingZero? h
    split at h
    · cases h
    split at h
    · exact plain_decimal? h hzero
    · obtain rfl := Option.some.inj h
      exact @plain_wholeNumber 1 _ 10 ⟨[0], 0, c :: cs⟩ hzero
  · next cs =>
    simp only [Option.bind_eq_bind, Option.bind_eq_some_iff] at h
    obtain ⟨-, -, h⟩ := h
    exact plain_decimal? h (.nil _)
  · exact plain_plainNumeral? h

/-- The characters of a number take one byte each. -/
theorem plain_number? (h : number? cs = some l) : Plain l.size cs l.rest := by
  simp only [number?, Option.bind_eq_bind, Option.bind_eq_some_iff, Option.guard_eq_some', Option.pure_def,
    Option.some.injEq] at h
  obtain ⟨l', hl', -, -, rfl⟩ := h
  exact plain_numeral? hl'

theorem takes_number? (h : number? cs = some l) : Takes l.size cs l.rest :=
  (plain_number? h).takes

/-! ### Strings -/

theorem isSome_of_hexNumber? (h : hexNumber? ds = some n) : ∀ c ∈ ds, (hexDigit? c).isSome = true := by
  have hall : ∀ {ds : List Char} {k : Nat}, (ds.foldlM (fun n c => (hexDigit? c).map (n * 16 + ·)) k).isSome =
      true → ∀ c ∈ ds, (hexDigit? c).isSome = true := by
    intro ds
    induction ds with
    | nil => intro k _ c hc; cases hc
    | cons d ds ih =>
      intro k hk c hc
      rw [List.foldlM_cons] at hk
      cases hd : hexDigit? d with
      | none => simp [hd] at hk
      | some v =>
        rcases List.mem_cons.1 hc with rfl | hc
        · rw [hd]
          rfl
        · exact ih (by simpa [hd] using hk) c hc
  exact hall (by rw [hexNumber?] at h; rw [h]; rfl)

/-- Hexadecimal digits take one byte each. -/
theorem takes_hexNumber? {run : List Char} (h : hexNumber? run = some n) (rest : List Char) :
    Takes run.length (run ++ rest) rest :=
  ⟨run, rfl, size_eq_length fun c hc => toNat_of_hexDigit? (isSome_of_hexNumber? h c hc)⟩

theorem takes_codePoint? (h : codePoint? cs = some (k, n, rest)) : Takes n cs rest := by
  rw [codePoint?.eq_def] at h
  split at h
  · next cs =>
    simp only [Option.bind_eq_bind, Option.bind_eq_some_iff, Option.guard_eq_some'] at h
    obtain ⟨-, -, k', -, -, -, hrest⟩ := h
    have hrun := (plain_takeWhile (fun c => @toNat_of_hexDigit? c) cs).takes
    split at hrest
    · next r' hdrop =>
      simp only [Option.pure_def, Option.some.injEq, Prod.mk.injEq] at hrest
      obtain ⟨rfl, rfl, rfl⟩ := hrest
      rw [hdrop] at hrun
      exact (hrun.trans ((Takes.nil r').succ rfl)).succ rfl
    · cases hrest
  · next a b c d r' _ =>
    obtain ⟨k', hk, hrest⟩ := Option.map_eq_some_iff.1 h
    simp only [Prod.mk.injEq] at hrest
    obtain ⟨rfl, rfl, rfl⟩ := hrest
    exact takes_hexNumber? hk r'
  · cases h

theorem takes_paired (h : Takes (n + 1) cs ds) : Takes (paired k n ds).size cs (paired k n ds).rest := by
  rw [paired.eq_def]
  split
  · next a b c d rest =>
    split
    · next low hlow =>
      split
      · next hpair =>
        simp only [Bool.and_eq_true, decide_eq_true_eq] at hpair
        obtain ⟨⟨-, rfl⟩, -⟩ := hpair
        exact h.trans (((takes_hexNumber? hlow rest).succ rfl).succ rfl)
      · exact h
    · exact h
  · exact h

theorem toNat_of_isOctal (h : isOctal c = true) : c.toNat < 128 := by
  simp only [isOctal, Bool.and_eq_true, decide_eq_true_eq] at h
  have : c.toNat ≤ 55 := UInt32.le_iff_toNat_le.1 h.2
  omega

theorem takes_plainEscape (c : Char) (cs : List Char) :
    Takes (plainEscape c cs).size (c :: cs) (plainEscape c cs).rest := by
  have hchar : Takes c.utf8Size (c :: cs) cs := (Takes.nil cs).cons c
  rw [plainEscape]
  split
  · exact hchar
  split
  · refine (plain_of_ascii ((List.takeWhile_prefix _).trans (List.take_prefix _ _)) fun d hd => ?_).takes
    exact toNat_of_isOctal (List.mem_takeWhile_imp hd)
  · exact hchar

theorem takes_escape? {e : Escape} (h : escape? cs = some e) : Takes e.size cs e.rest := by
  cases cs with
  | nil => cases h
  | cons c cs =>
    by_cases hx : c = 'x'
    · subst hx
      match cs, h with
      | a :: b :: cs, h =>
        have h : (hexNumber? [a, b]).map (fun n => (⟨[n], 3, cs⟩ : Escape)) = some e := h
        obtain ⟨k, hk, rfl⟩ := Option.map_eq_some_iff.1 h
        exact (takes_hexNumber? hk cs).succ rfl
    by_cases hu : c = 'u'
    · subst hu
      have h : unicodeEscape? cs = some e := h
      rw [unicodeEscape?_eq] at h
      obtain ⟨⟨k, n, r⟩, hpoint, rfl⟩ := Option.map_eq_some_iff.1 h
      exact takes_paired ((takes_codePoint? hpoint).succ rfl)
    by_cases hline : ∃ cs', c = '\r' ∧ cs = '\n' :: cs'
    · obtain ⟨cs', rfl, rfl⟩ := hline
      injection h with h
      subst h
      exact ((Takes.nil cs').succ rfl).succ rfl
    · rw [escape?_of_ne hx hu fun cs' hc hcs => hline ⟨cs', hc, hcs⟩] at h
      injection h with h
      rw [← h]
      exact takes_plainEscape c cs

theorem takes_stringPoints? {e : Escape} (h : stringPoints? quote n cs = some e) (hquote : quote.utf8Size = 1) :
    Takes e.size cs e.rest := by
  induction n generalizing cs e with
  | zero => cases cs <;> cases h
  | succ n ih =>
    cases cs with
    | nil => cases h
    | cons c cs =>
      rw [stringPoints?.eq_def] at h
      split at h
      · next m cs heq hcs =>
        obtain rfl := Nat.succ.inj heq
        injection hcs with hc hcs
        subst hc
        subst hcs
        simp only [Option.bind_eq_bind, Option.bind_eq_some_iff, Option.pure_def, Option.some.injEq] at h
        obtain ⟨e', hescape, more, hmore, rfl⟩ := h
        refine (((takes_escape? hescape).trans (ih hmore)).succ rfl).of_eq ?_
        show e'.size + more.size + 1 = 1 + e'.size + more.size
        omega
      · next m x xs _ heq hcs =>
        obtain rfl := Nat.succ.inj heq
        injection hcs with hc hcs
        subst hc
        subst hcs
        split at h
        · next hc =>
          obtain rfl := Option.some.inj h
          exact (Takes.nil cs).succ (by rw [hc, hquote])
        split at h
        · cases h
        · simp only [Option.bind_eq_bind, Option.bind_eq_some_iff, Option.pure_def, Option.some.injEq] at h
          obtain ⟨more, hmore, rfl⟩ := h
          exact (ih hmore).cons c
      · cases h

/-! ### Templates and regular expressions -/

theorem takes_template? {raw : List Char} {valid : Bool} (h : template? raw valid m cs = some l) :
    ∃ k, l.size = m + k ∧ Takes k cs l.rest := by
  induction raw, valid, m, cs using template?.induct with
  | case1 => cases h
  | case2 raw valid m rest =>
    obtain rfl := Option.some.inj h
    exact ⟨1, rfl, (Takes.nil rest).succ rfl⟩
  | case3 raw valid m rest =>
    obtain rfl := Option.some.inj h
    exact ⟨2, rfl, ((Takes.nil rest).succ rfl).succ rfl⟩
  | case4 raw valid m c cs ih =>
    obtain ⟨k, hk, htakes⟩ := ih h
    exact ⟨_, by omega, (htakes.cons c).succ rfl⟩
  | case5 raw valid m c cs h1 h2 h3 ih =>
    rw [template?] at h
    · obtain ⟨k, hk, htakes⟩ := ih h
      exact ⟨_, by omega, htakes.cons c⟩
    · exact h1
    · exact h2
    · exact h3

theorem takes_regexBody? {bracketed : Bool} {body : List Char} (h : regexBody? bracketed cs = some (body, rest)) :
    Takes (size body + 1) cs rest := by
  induction bracketed, cs using regexBody?.induct generalizing body with
  | case1 => cases h
  | case2 bracketed c cs hline =>
    rw [regexBody?, if_pos hline] at h
    cases h
  | case3 bracketed c cs hline ih =>
    rw [regexBody?, if_neg hline] at h
    obtain ⟨⟨body, r⟩, hbody, heq⟩ := Option.map_eq_some_iff.1 h
    simp only [Prod.mk.injEq] at heq
    obtain ⟨rfl, rfl⟩ := heq
    refine (((ih hbody).cons c).cons '\\').of_eq ?_
    rw [size_cons, size_cons]
    omega
  | case4 bracketed c cs h1 hline =>
    rw [regexBody?, if_pos hline] at h
    · cases h
    · exact h1
  | case5 bracketed c cs h1 hline hslash =>
    rw [regexBody?, if_neg hline, if_pos hslash] at h
    · simp only [Option.some.injEq, Prod.mk.injEq] at h
      obtain ⟨rfl, rfl⟩ := h
      rw [Bool.and_eq_true, decide_eq_true_eq] at hslash
      exact (Takes.nil cs).succ (by rw [hslash.1]; rfl)
    · exact h1
  | case6 bracketed c cs h1 hline hslash inside =>
    rename_i ih
    rw [regexBody?, if_neg hline, if_neg hslash] at h
    · obtain ⟨⟨body, r⟩, hbody, heq⟩ := Option.map_eq_some_iff.1 h
      simp only [Prod.mk.injEq] at heq
      obtain ⟨rfl, rfl⟩ := heq
      refine ((ih hbody).cons c).of_eq ?_
      rw [size_cons]
      omega
    · exact h1

theorem takes_regex? (h : regex? cs = some l) : ∃ k, l.size = 1 + k ∧ 1 ≤ k ∧ Takes k cs l.rest := by
  simp only [regex?, Option.bind_eq_bind, Option.bind_eq_some_iff, Option.guard_eq_some', Option.pure_def,
    Option.some.injEq] at h
  obtain ⟨⟨body, rest⟩, hbody, -, -, -, hflags, -, -, rfl⟩ := h
  have hrun := plain_of_ascii (List.takeWhile_prefix continuesName (l := rest)) fun c hc => by
    simp only [flagsOk, Bool.and_eq_true, List.all_eq_true] at hflags
    have hall : ∀ d ∈ ['d', 'g', 'i', 'm', 's', 'u', 'v', 'y'], d.toNat < 128 := by simp
    exact hall c (List.contains_iff_mem.1 (hflags.2 c hc))
  refine ⟨_, ?_, ?_, (takes_regexBody? hbody).trans hrun.takes⟩
  · show 2 + size body + (rest.takeWhile continuesName).length =
      1 + (size body + 1 + (rest.takeWhile continuesName).length)
    omega
  · omega

/-! ### Names and marks -/

theorem takes_spelled? {ok : Char → Bool} {s : Spelled} (h : spelled? ok n cs = some s) :
    Takes s.size cs s.rest := by
  induction n generalizing ok cs s with
  | zero =>
    rw [spelled?.eq_def] at h
    split at h
    · obtain rfl := Option.some.inj h
      exact .nil _
    · obtain rfl := Option.some.inj h
      exact .nil _
    · next heq => cases heq
    · next heq => cases heq
  | succ n ih =>
    rw [spelled?.eq_def] at h
    split at h
    · obtain rfl := Option.some.inj h
      exact .nil _
    · next heq _ => cases heq
    · next m cs heq =>
      obtain rfl := Nat.succ.inj heq
      simp only [Option.bind_eq_bind, Option.bind_eq_some_iff, Option.guard_eq_some', Option.pure_def,
        Option.some.injEq] at h
      obtain ⟨⟨k, n, rest⟩, hpoint, -, -, -, -, s', hs', rfl⟩ := h
      refine ((((takes_codePoint? hpoint).succ rfl).succ rfl).trans (ih hs')).of_eq ?_
      rw [Spelled.cons]
    · next m c cs _ heq =>
      obtain rfl := Nat.succ.inj heq
      split at h
      · obtain ⟨s', hs', rfl⟩ := Option.map_eq_some_iff.1 h
        exact (ih hs').cons c
      · obtain rfl := Option.some.inj h
        exact .nil _

theorem takes_nameToken? (h : nameToken? n cs = some l) : Takes l.size cs l.rest := by
  have hname {cs : List Char} {s : Spelled} (h : name? n cs = some s) : Takes s.size cs s.rest := by
    simp only [name?, Option.bind_eq_bind, Option.bind_eq_some_iff, Option.guard_eq_some', Option.pure_def,
      Option.some.injEq] at h
    obtain ⟨s', hs', -, -, rfl⟩ := h
    exact takes_spelled? hs'
  rw [nameToken?.eq_def] at h
  split at h
  · obtain ⟨s, hs, rfl⟩ := Option.map_eq_some_iff.1 h
    exact (hname hs).succ rfl
  · obtain ⟨s, hs, rfl⟩ := Option.map_eq_some_iff.1 h
    exact hname hs

theorem size_mark {m : String} (hm : m ∈ marks) : size m.toList = m.length := by
  have hall : ∀ m ∈ marks, size m.toList = m.length := by decide
  exact hall m hm

theorem takes_mark? (h : mark? cs = some l) : Takes l.size cs l.rest := by
  obtain ⟨m, hm, hl, hcs⟩ := mark?_eq_some h
  refine ⟨m.toList, hcs, ?_⟩
  rw [size_mark hm, hl]

/-! ### Tokens -/

/-- A token stands on the bytes that it tells. -/
theorem takes_lexeme? (h : lexeme? n cs = some l) : Takes l.size cs l.rest := by
  cases cs with
  | nil =>
    obtain rfl := Option.some.inj h
    exact .nil []
  | cons c cs =>
    rw [lexeme?] at h
    split at h
    · exact takes_number? h
    split at h
    · next hc =>
      have hone : c.utf8Size = 1 := by rcases hc with rfl | rfl <;> rfl
      obtain ⟨e, he, rfl⟩ := Option.map_eq_some_iff.1 h
      exact ((takes_stringPoints? he hone).succ hone).of_eq (Nat.add_comm ..)
    split at h
    · next hc =>
      obtain ⟨k, hk, htakes⟩ := takes_template? h
      exact (htakes.succ (by rw [hc]; rfl)).of_eq (by rw [hk, Nat.add_comm])
    split at h
    · exact takes_nameToken? h
    · exact takes_mark? h

end Relabel.Script
