import Relabel.Proofs.Script.Sizes

/-!
# Tokens in front of another line

No token goes on over a line end that it does not hold already: a token that is read at the end of a text
is read in front of another line too (`lexeme?_newline`), and so are a regular expression and the rest of a
template. A gap ends where it did, or goes on in the other line (`gap?_newline`).
-/

namespace Relabel.Script
open Text
variable {n m k offset : Nat} {c : Char} {cs rest : List Char} {p : Char → Bool} {l : Lexeme}
  {newline : Bool} {part : GapPart} {g : Gap}

/-! ### Gaps -/

theorem takes_gap? (h : gap? newline offset part cs = some g) :
    ∃ k, g.offset = offset + k ∧ Takes k cs g.rest := by
  fun_induction gap? newline offset part cs with
  | case1 => cases h
  | case2 =>
    obtain rfl := Option.some.inj h
    exact ⟨0, rfl, .nil []⟩
  | case3 newline offset cs ih =>
    obtain ⟨k, hk, htakes⟩ := ih h
    exact ⟨k + 2, by omega, (htakes.succ rfl).succ rfl⟩
  | case4 newline offset cs ih =>
    obtain ⟨k, hk, htakes⟩ := ih h
    exact ⟨k + 2, by omega, (htakes.succ rfl).succ rfl⟩
  | case5 newline offset cs ih =>
    obtain ⟨k, hk, htakes⟩ := ih h
    exact ⟨k + 2, by omega, (htakes.succ rfl).succ rfl⟩
  | case6 newline offset c cs _ _ _ ih =>
    obtain ⟨k, hk, htakes⟩ := ih h
    exact ⟨_, by omega, htakes.cons c⟩
  | case7 newline offset c cs _ _ _ _ ih =>
    obtain ⟨k, hk, htakes⟩ := ih h
    exact ⟨_, by omega, htakes.cons c⟩
  | case8 =>
    obtain rfl := Option.some.inj h
    exact ⟨0, rfl, .nil _⟩
  | case9 newline offset c cs _ ih =>
    obtain ⟨k, hk, htakes⟩ := ih h
    exact ⟨_, by omega, htakes.cons c⟩
  | case10 newline offset c cs _ ih =>
    obtain ⟨k, hk, htakes⟩ := ih h
    exact ⟨_, by omega, htakes.cons c⟩
  | case11 newline offset c cs _ ih =>
    obtain ⟨k, hk, htakes⟩ := ih h
    exact ⟨_, by omega, htakes.cons c⟩

/-- Whether a line has ended before changes nothing but the flag. -/
theorem gap?_true (newline : Bool) (offset : Nat) (part : GapPart) (cs : List Char) :
    gap? true offset part cs = (gap? newline offset part cs).map ({ · with newline := true }) := by
  fun_induction gap? newline offset part cs with
  | case1 => rfl
  | case2 newline offset part hpart =>
    cases part with
    | blank => rfl
    | lineComment => rfl
    | blockComment => exact absurd rfl hpart
  | case3 newline offset cs ih => exact ih
  | case4 newline offset cs ih => exact ih
  | case5 newline offset cs ih => exact ih
  | case6 newline offset c cs h1 h2 hline ih =>
    rw [← ih, gap?, if_pos hline]
    · exact h1
    · exact h2
  | case7 newline offset c cs h1 h2 hline hblank ih =>
    rw [← ih, gap?, if_neg hline, if_pos hblank]
    · exact h1
    · exact h2
  | case8 newline offset c cs h1 h2 hline hblank =>
    rw [gap?, if_neg hline, if_neg hblank]
    · rfl
    · exact h1
    · exact h2
  | case9 newline offset c cs hline ih => rw [← ih, gap?, if_pos hline]
  | case10 newline offset c cs hline ih => rw [← ih, gap?, if_neg hline]
  | case11 newline offset c cs hclose ih =>
    rw [← ih, gap?, Bool.true_or]
    exact hclose

/-- A gap at a character that begins no comment. -/
theorem gap?_blank (h : ∀ x xs, c = '/' → cs = x :: xs → x ≠ '/' ∧ x ≠ '*') :
    gap? newline offset .blank (c :: cs) =
      if isLineEnd c then gap? true (offset + c.utf8Size) .blank cs
      else if isBlank c then gap? newline (offset + c.utf8Size) .blank cs
      else some ⟨newline, offset, c :: cs⟩ := by
  rw [gap?]
  · rintro xs rfl rfl
    exact (h '/' xs rfl rfl).1 rfl
  · rintro xs rfl rfl
    exact (h '*' xs rfl rfl).2 rfl

/-- The gap at the end of a text goes on in the next line; any other one ends where it did. -/
theorem gap?_newline (h : gap? newline offset part cs = some g) (ds : List Char) :
    gap? newline offset part (cs ++ '\n' :: ds) =
      if g.rest = [] then gap? true (g.offset + 1) .blank ds
      else some { g with rest := g.rest ++ '\n' :: ds } := by
  have hplain {c : Char} {cs : List Char} (h1 : ∀ xs, c = '/' → cs = '/' :: xs → False)
      (h2 : ∀ xs, c = '/' → cs = '*' :: xs → False) :
      ∀ x xs, c = '/' → cs ++ '\n' :: ds = x :: xs → x ≠ '/' ∧ x ≠ '*' := by
    intro x xs hc hcs
    cases cs with
    | nil =>
      injection hcs with hx _
      subst hx
      decide
    | cons y ys =>
      injection hcs with hx _
      subst hx
      exact ⟨fun hy => h1 ys hc (by rw [hy]), fun hy => h2 ys hc (by rw [hy])⟩
  fun_induction gap? newline offset part cs with
  | case1 => cases h
  | case2 newline offset part hpart =>
    obtain rfl := Option.some.inj h
    cases part with
    | blank => rfl
    | lineComment => rfl
    | blockComment => exact absurd rfl hpart
  | case3 newline offset cs ih => exact ih h
  | case4 newline offset cs ih => exact ih h
  | case5 newline offset cs ih => exact ih h
  | case6 newline offset c cs h1 h2 hline ih =>
    rw [← ih h, List.cons_append, gap?_blank (hplain h1 h2), if_pos hline]
  | case7 newline offset c cs h1 h2 hline hblank ih =>
    rw [← ih h, List.cons_append, gap?_blank (hplain h1 h2), if_neg hline, if_pos hblank]
  | case8 newline offset c cs h1 h2 hline hblank =>
    obtain rfl := Option.some.inj h
    rw [List.cons_append, gap?_blank (hplain h1 h2), if_neg hline, if_neg hblank, if_neg (List.cons_ne_nil c cs)]
  | case9 newline offset c cs hline ih =>
    rw [← ih h, List.cons_append, gap?, if_pos hline]
  | case10 newline offset c cs hline ih =>
    rw [← ih h, List.cons_append, gap?, if_neg hline]
  | case11 newline offset c cs hclose ih =>
    rw [← ih h, List.cons_append, gap?]
    rintro xs rfl hxs
    cases cs with
    | nil => injection hxs with hx _; exact absurd hx (by decide)
    | cons y ys => injection hxs with hx _; exact hclose ys rfl (by rw [hx])

/-! ### Strings and templates -/

theorem hexNumber?_newline {ds : List Char} (h : '\n' ∈ ds) : hexNumber? ds = none := by
  cases hn : hexNumber? ds with
  | none => rfl
  | some n => exact absurd (isSome_of_hexNumber? hn '\n' h) (by decide)

theorem codePoint?_of_ne (h : ∀ xs, cs ≠ '\x7b' :: xs) :
    codePoint? cs = if 4 ≤ cs.length then (hexNumber? (cs.take 4)).map (·, 4, cs.drop 4) else none := by
  match cs, h with
  | [], _ => rfl
  | [a], _ => simp [codePoint?]
  | [a, b], _ => simp [codePoint?]
  | [a, b, c], _ => simp [codePoint?]
  | a :: b :: c :: d :: rest, h =>
    rw [codePoint?, if_pos (by simp)]
    · rfl
    · intro ha
      exact h _ (by rw [ha])

theorem codePoint?_newline (cs ds : List Char) :
    codePoint? (cs ++ '\n' :: ds) = (codePoint? cs).map fun (k, n, r) => (k, n, r ++ '\n' :: ds) := by
  by_cases hbrace : ∃ xs, cs = '\x7b' :: xs
  · obtain ⟨xs, rfl⟩ := hbrace
    have hrun : (xs ++ '\n' :: ds).takeWhile (fun c => (hexDigit? c).isSome) =
        xs.takeWhile fun c => (hexDigit? c).isSome :=
      takeWhile_append_of_head fun c hc => by
        obtain rfl := Option.some.inj hc
        rfl
    have hdrop := @List.drop_append_of_le_length _ xs ('\n' :: ds) _
      (List.takeWhile_prefix fun c => (hexDigit? c).isSome).length_le
    simp only [List.cons_append, codePoint?, hrun, hdrop]
    cases (xs.takeWhile fun c => (hexDigit? c).isSome).isEmpty with
    | true => rfl
    | false =>
      cases hexNumber? (xs.takeWhile fun c => (hexDigit? c).isSome) with
      | none => rfl
      | some k =>
        cases xs.drop (xs.takeWhile fun c => (hexDigit? c).isSome).length with
        | nil => simp
        | cons y ys => by_cases hk : k ≤ 0x10ffff <;> by_cases hy : y = '\x7d' <;> simp [hk, hy]
  · have hne : ∀ xs, cs ++ '\n' :: ds ≠ '\x7b' :: xs := by
      intro xs hxs
      cases cs with
      | nil => injection hxs with hc _; exact absurd hc (by decide)
      | cons c cs => injection hxs with hc _; exact hbrace ⟨cs, by rw [hc]⟩
    rw [codePoint?_of_ne hne, codePoint?_of_ne fun xs hxs => hbrace ⟨xs, hxs⟩]
    by_cases hlen : 4 ≤ cs.length
    · rw [if_pos hlen, if_pos (by rw [List.length_append]; omega), List.take_append_of_le_length hlen,
        List.drop_append_of_le_length hlen]
      cases hexNumber? (cs.take 4) <;> rfl
    · rw [if_neg hlen, hexNumber?_newline]
      · simp
      · rw [List.take_append, show 4 - cs.length = (3 - cs.length) + 1 by omega, List.take_succ_cons]
        simp

theorem isSome_unicodeEscape? (cs : List Char) : (unicodeEscape? cs).isSome = (codePoint? cs).isSome := by
  rw [unicodeEscape?_eq, Option.isSome_map]

/-- Whether an escape has a meaning in a template does not change with the next line. -/
theorem templateEscapeOk_newline (hcs : cs ≠ []) (ds : List Char) :
    templateEscapeOk (c :: (cs ++ '\n' :: ds)) = templateEscapeOk (c :: cs) := by
  obtain ⟨x, xs, rfl⟩ := List.exists_cons_of_ne_nil hcs
  have hescape : (escape? (c :: x :: xs ++ '\n' :: ds)).isSome = (escape? (c :: x :: xs)).isSome := by
    by_cases hx : c = 'x'
    · subst hx
      cases xs with
      | nil =>
        show (Option.map _ (hexNumber? [x, '\n'])).isSome = _
        rw [hexNumber?_newline (by simp)]
        rfl
      | cons y ys =>
        show (Option.map _ (hexNumber? [x, y])).isSome = (Option.map _ (hexNumber? [x, y])).isSome
        rw [Option.isSome_map, Option.isSome_map]
    by_cases hu : c = 'u'
    · subst hu
      show (unicodeEscape? (x :: xs ++ '\n' :: ds)).isSome = (unicodeEscape? (x :: xs)).isSome
      rw [isSome_unicodeEscape?, isSome_unicodeEscape?, codePoint?_newline, Option.isSome_map]
    · have hsome (ys : List Char) : (escape? (c :: ys)).isSome = true := by
        by_cases hline : ∃ zs, c = '\r' ∧ ys = '\n' :: zs
        · obtain ⟨zs, rfl, rfl⟩ := hline
          rfl
        · rw [escape?_of_ne hx hu fun zs hc hys => hline ⟨zs, hc, hys⟩]
          rfl
      rw [List.cons_append, hsome, hsome]
  by_cases hzero : c = '0'
  · subst hzero
    rfl
  · have hok (ys : List Char) : templateEscapeOk (c :: ys) = (!c.isDigit && (escape? (c :: ys)).isSome) := by
      rw [templateEscapeOk]
      · exact fun _ _ h _ => hzero h
      · exact fun h _ => hzero h
    rw [hok, hok, ← hescape]
    rfl

theorem template?_newline {raw : List Char} {valid : Bool} (h : template? raw valid k cs = some l)
    (ds : List Char) : template? raw valid k (cs ++ '\n' :: ds) = some (l.before ('\n' :: ds)) := by
  induction raw, valid, k, cs using template?.induct with
  | case1 => cases h
  | case2 raw valid k rest =>
    obtain rfl := Option.some.inj h
    rfl
  | case3 raw valid k rest =>
    obtain rfl := Option.some.inj h
    rfl
  | case4 raw valid k c cs ih =>
    have hcs : cs ≠ [] := by
      rintro rfl
      cases h
    rw [← ih h, List.cons_append, List.cons_append, template?, templateEscapeOk_newline hcs]
  | case5 raw valid k c cs h1 h2 h3 ih =>
    have hcs : cs ≠ [] := by
      rintro rfl
      rw [template?] at h
      · cases h
      · exact h1
      · exact h2
      · exact h3
    obtain ⟨x, xs, rfl⟩ := List.exists_cons_of_ne_nil hcs
    rw [template?] at h
    · rw [← ih h, List.cons_append, template?]
      · exact h1
      · intro ys hc hys
        injection hys with hx _
        exact h2 xs hc (by rw [hx])
      · intro d ys hc _
        exact h3 x xs hc rfl
    · exact h1
    · exact h2
    · exact h3

/-! ### Regular expressions -/

theorem regexBody?_append {bracketed : Bool} {body : List Char} (h : regexBody? bracketed cs = some (body, rest))
    (ds : List Char) : regexBody? bracketed (cs ++ ds) = some (body, rest ++ ds) := by
  -- a backslash in front of nothing ends no body
  have hplain {c : Char} {cs : List Char} (h1 : ∀ x xs, c = '\\' → cs = x :: xs → False) (hcs : cs ≠ []) :
      ∀ x xs, c = '\\' → cs ++ ds = x :: xs → False := by
    intro _ _ hc _
    obtain ⟨y, ys, hcs⟩ := List.exists_cons_of_ne_nil hcs
    exact h1 y ys hc hcs
  induction bracketed, cs using regexBody?.induct generalizing body with
  | case1 => cases h
  | case2 bracketed c cs hline =>
    rw [regexBody?, if_pos hline] at h
    cases h
  | case3 bracketed c cs hline ih =>
    rw [regexBody?, if_neg hline] at h
    obtain ⟨⟨body, r⟩, hbody, heq⟩ := Option.map_eq_some_iff.1 h
    simp only [Prod.mk.injEq] at heq
    obtain ⟨rfl, rfl⟩ := heq
    rw [List.cons_append, List.cons_append, regexBody?, if_neg hline, ih hbody]
    rfl
  | case4 bracketed c cs h1 hline =>
    rw [regexBody?, if_pos hline] at h
    · cases h
    · exact h1
  | case5 bracketed c cs h1 hline hslash =>
    rw [regexBody?, if_neg hline, if_pos hslash] at h
    · simp only [Option.some.injEq, Prod.mk.injEq] at h
      obtain ⟨rfl, rfl⟩ := h
      rw [Bool.and_eq_true, decide_eq_true_eq] at hslash
      rw [List.cons_append, regexBody?, if_neg hline, if_pos (by simpa using hslash)]
      rintro x xs rfl
      exact absurd hslash.1 (by decide)
    · exact h1
  | case6 bracketed c cs h1 hline hslash inside =>
    rename_i ih
    rw [regexBody?, if_neg hline, if_neg hslash] at h
    · obtain ⟨⟨body, r⟩, hbody, heq⟩ := Option.map_eq_some_iff.1 h
      simp only [Prod.mk.injEq] at heq
      obtain ⟨rfl, rfl⟩ := heq
      have hcs : cs ≠ [] := by
        rintro rfl
        cases hbody
      rw [List.cons_append, regexBody?, if_neg hline, if_neg hslash]
      · exact congrArg (Option.map _) (ih hbody)
      · exact hplain h1 hcs
    · exact h1

theorem regex?_newline (h : regex? cs = some l) (ds : List Char) :
    regex? (cs ++ '\n' :: ds) = some (l.before ('\n' :: ds)) := by
  simp only [regex?, Option.bind_eq_bind, Option.bind_eq_some_iff, Option.guard_eq_some', Option.pure_def,
    Option.some.injEq] at h
  obtain ⟨⟨body, rest⟩, hbody, -, hempty, -, hflags, -, hslash, rfl⟩ := h
  have hrun : (rest ++ '\n' :: ds).takeWhile continuesName = rest.takeWhile continuesName :=
    takeWhile_append_of_head fun c hc => by
      obtain rfl := Option.some.inj hc
      decide
  have hdrop := @List.drop_append_of_le_length _ rest ('\n' :: ds) _
    (List.takeWhile_prefix continuesName).length_le
  have hslash' : ((rest.drop (rest.takeWhile continuesName).length ++ '\n' :: ds).head? != some '\\') = true := by
    cases hd : rest.drop (rest.takeWhile continuesName).length with
    | nil => rfl
    | cons x xs => simpa [hd] using hslash
  simp only [regex?, regexBody?_append hbody, Option.bind_eq_bind, Option.bind_some, hrun, hdrop, hempty, hflags,
    hslash']
  rfl

/-! ### Names and marks -/

theorem stripPrefix?_newline {word : List Char} (hword : '\n' ∉ word) (cs ds : List Char) :
    stripPrefix? word (cs ++ '\n' :: ds) = (stripPrefix? word cs).map (· ++ '\n' :: ds) := by
  induction word generalizing cs with
  | nil => rfl
  | cons w word ih =>
    have hw : w ≠ '\n' := fun h => hword (by rw [h]; exact List.mem_cons_self ..)
    cases cs with
    | nil => simp [stripPrefix?, hw]
    | cons c cs =>
      have hrest := ih (fun h => hword (List.mem_cons_of_mem w h)) cs
      rw [List.cons_append, stripPrefix?, stripPrefix?, hrest]
      split <;> rfl

theorem mark?_newline (cs ds : List Char) :
    mark? (cs ++ '\n' :: ds) = (mark? cs).map (·.before ('\n' :: ds)) := by
  have hmarks : ∀ m ∈ marks, '\n' ∉ m.toList := by decide
  have hoff (m : String) (rest : List Char) : marksOff m (rest ++ '\n' :: ds) = marksOff m rest := by
    cases rest with
    | nil => simp [marksOff]
    | cons c rest => rfl
  rw [mark?, mark?]
  generalize marks = ms at hmarks
  induction ms with
  | nil => rfl
  | cons m ms ih =>
    rw [List.findSome?_cons, List.findSome?_cons, ih fun x hx => hmarks x (List.mem_cons_of_mem m hx),
      stripPrefix?_newline (hmarks m (List.mem_cons_self ..))]
    cases stripPrefix? m.toList cs with
    | none => rfl
    | some rest =>
      simp only [Option.map_some, hoff]
      cases marksOff m rest <;> rfl

/-- A name ends at a character that neither goes on with it nor spells one that does. -/
theorem spelled?_of_not {ok : Char → Bool} (hok : ok c = false)
    (hspells : ∀ xs, c = '\\' → cs = 'u' :: xs → False) (m : Nat) :
    spelled? ok m (c :: cs) = some ⟨[], 0, false, c :: cs⟩ := by
  cases m with
  | zero => rfl
  | succ m =>
    rw [spelled?, hok]
    · rfl
    · exact hspells

theorem spelled?_newline {ok : Char → Bool} {s : Spelled} (h : spelled? ok n cs = some s) (hok : ok '\n' = false)
    (hn : cs.length ≤ n) (hm : n ≤ m) (ds : List Char) :
    spelled? ok m (cs ++ '\n' :: ds) = some { s with rest := s.rest ++ '\n' :: ds } := by
  have hcontinues : continuesName '\n' = false := by decide
  have hend {ok : Char → Bool} (hok : ok '\n' = false) (m : Nat) :
      spelled? ok m ('\n' :: ds) = some ⟨[], 0, false, '\n' :: ds⟩ :=
    spelled?_of_not hok (by rintro xs hx; exact absurd hx (by decide)) m
  induction n generalizing ok cs s m with
  | zero =>
    obtain rfl := List.eq_nil_of_length_eq_zero (Nat.le_zero.1 hn)
    obtain rfl := Option.some.inj h
    exact hend hok m
  | succ n ih =>
    obtain ⟨m, rfl⟩ : ∃ k, m = k + 1 := ⟨m - 1, by omega⟩
    have hm := Nat.le_of_succ_le_succ hm
    cases cs with
    | nil =>
      obtain rfl := Option.some.inj h
      exact hend hok (m + 1)
    | cons c cs =>
      rw [List.length_cons] at hn
      by_cases hspells : ∃ xs, c = '\\' ∧ cs = 'u' :: xs
      · obtain ⟨xs, rfl, rfl⟩ := hspells
        rw [spelled?] at h
        simp only [Option.bind_eq_bind, Option.bind_eq_some_iff, Option.guard_eq_some', Option.pure_def,
          Option.some.injEq] at h
        obtain ⟨⟨k, size, rest⟩, hpoint, -, hvalid, -, hk, s', hs', rfl⟩ := h
        have hlen : rest.length + 3 ≤ xs.length := (codePoint?_append hpoint []).2
        rw [List.length_cons] at hn
        have hrest := ih hs' hcontinues (show rest.length ≤ n by omega) hm
        rw [List.cons_append, List.cons_append, spelled?, codePoint?_newline, hpoint]
        simp only [Option.map_some, Option.bind_eq_bind, Option.bind_some, hvalid, hk, hrest]
        rfl
      · have hne {ds : List Char} (h : ∀ xs, cs ++ ds = 'u' :: xs → ∃ ys, cs = 'u' :: ys) :
            ∀ xs, c = '\\' → cs ++ ds = 'u' :: xs → False := by
          intro xs hc hxs
          obtain ⟨ys, hys⟩ := h xs hxs
          exact hspells ⟨ys, hc, hys⟩
        rw [spelled?] at h
        · rw [List.cons_append, spelled?]
          · split at h
            · next hc =>
              obtain ⟨s', hs', rfl⟩ := Option.map_eq_some_iff.1 h
              rw [if_pos hc, ih hs' hcontinues (Nat.le_of_succ_le_succ hn) hm]
              rfl
            · next hc =>
              obtain rfl := Option.some.inj h
              rw [if_neg hc]
              rfl
          · refine hne fun xs hxs => ?_
            cases cs with
            | nil => injection hxs with hx _; exact absurd hx (by decide)
            | cons y ys => injection hxs with hx _; exact ⟨ys, by rw [hx]⟩
        · exact fun xs hc hxs => hspells ⟨xs, hc, hxs⟩

theorem nameToken?_newline (h : nameToken? n cs = some l) (hn : cs.length ≤ n) (hm : n ≤ m) (ds : List Char) :
    nameToken? m (cs ++ '\n' :: ds) = some (l.before ('\n' :: ds)) := by
  have hname {cs : List Char} {s : Spelled} (h : name? n cs = some s) (hn : cs.length ≤ n) :
      name? m (cs ++ '\n' :: ds) = some { s with rest := s.rest ++ '\n' :: ds } := by
    simp only [name?, Option.bind_eq_bind, Option.bind_eq_some_iff, Option.guard_eq_some', Option.pure_def,
      Option.some.injEq] at h
    obtain ⟨s', hs', -, hempty, rfl⟩ := h
    simp only [name?, spelled?_newline hs' (by decide) hn hm ds, Option.bind_eq_bind, Option.bind_some, hempty]
    rfl
  by_cases hhash : ∃ xs, cs = '#' :: xs
  · obtain ⟨xs, rfl⟩ := hhash
    rw [nameToken?] at h
    obtain ⟨s, hs, rfl⟩ := Option.map_eq_some_iff.1 h
    rw [List.cons_append, nameToken?, hname hs (by rw [List.length_cons] at hn; omega)]
    rfl
  · rw [nameToken?] at h
    · obtain ⟨s, hs, rfl⟩ := Option.map_eq_some_iff.1 h
      rw [nameToken?, hname hs hn]
      · rfl
      · intro xs hxs
        cases cs with
        | nil => injection hxs with hx _; exact absurd hx (by decide)
        | cons y ys => injection hxs with hx _; exact hhash ⟨ys, by rw [hx]⟩
    · exact fun xs hxs => hhash ⟨xs, hxs⟩

/-! ### Tokens -/

theorem number?_token (h : number? cs = some l) : (∃ v, l.token = .number v) ∨ ∃ s, l.token = .bigint s := by
  have hdecimal {whole : List Nat} {k : Nat} {cs : List Char} (h : decimal? whole k cs = some l) :
      ∃ v, l.token = .number v := by
    have hscaled {fraction : List Nat} {k : Nat} {cs : List Char} (h : scaled? whole fraction k cs = some l) :
        ∃ v, l.token = .number v := by
      obtain ⟨_, -, rfl⟩ := Option.map_eq_some_iff.1 h
      exact ⟨_, rfl⟩
    by_cases hdot : ∃ xs, cs = '.' :: xs
    · obtain ⟨xs, rfl⟩ := hdot
      rw [decimal?_dot] at h
      obtain ⟨d, -, h⟩ := Option.bind_eq_some_iff.1 h
      exact hscaled h
    · rw [decimal?_of_ne] at h
      · exact hscaled h
      · rintro c hc rfl
        exact hdot ⟨cs.tail, (List.cons_head?_tail hc).symm⟩
  have hwhole (base k : Nat) (d : Digits) :
      (∃ v, (wholeNumber base k d).token = .number v) ∨ ∃ s, (wholeNumber base k d).token = .bigint s := by
    rw [wholeNumber]
    split
    · exact .inr ⟨_, rfl⟩
    · exact .inl ⟨_, rfl⟩
  have hbased {base : Nat} {cs : List Char} (h : (digits? base cs).map (wholeNumber base 2) = some l) :
      (∃ v, l.token = .number v) ∨ ∃ s, l.token = .bigint s := by
    obtain ⟨d, -, rfl⟩ := Option.map_eq_some_iff.1 h
    exact hwhole base 2 d
  simp only [number?, Option.bind_eq_bind, Option.bind_eq_some_iff, Option.guard_eq_some', Option.pure_def,
    Option.some.injEq] at h
  obtain ⟨l', h, -, -, rfl⟩ := h
  rw [numeral?.eq_def] at h
  split at h
  · split at h
    · exact hbased h
    split at h
    · exact hbased h
    split at h
    · exact hbased h
    split at h
    · simp only [leadingZero?] at h
      split at h
      · obtain rfl := Option.some.inj h
        exact .inl ⟨_, rfl⟩
      split at h
      · exact .inl (hdecimal h)
      · obtain rfl := Option.some.inj h
        exact .inl ⟨_, rfl⟩
    split at h
    · cases h
    split at h
    · exact .inl (hdecimal h)
    · obtain rfl := Option.some.inj h
      exact hwhole 10 1 _
  · simp only [Option.bind_eq_bind, Option.bind_eq_some_iff] at h
    obtain ⟨-, -, h⟩ := h
    exact .inl (hdecimal h)
  · simp only [Option.bind_eq_bind, Option.bind_eq_some_iff] at h
    obtain ⟨d, -, h⟩ := h
    split at h
    · exact .inl (hdecimal h)
    · obtain rfl := Option.some.inj h
      exact hwhole 10 0 d

/-- A token that is no mark is neither the end of a program nor invalid. -/
theorem mark?_or_of_lexeme? (h : lexeme? n (c :: cs) = some l) :
    mark? (c :: cs) = some l ∨ (∀ m, l.token ≠ .mark m) ∧ l.token ≠ .stop ∧ l.token ≠ .invalid := by
  rw [lexeme?] at h
  split at h
  · rcases number?_token h with ⟨v, htoken⟩ | ⟨s, htoken⟩ <;> simp [htoken]
  split at h
  · obtain ⟨e, -, rfl⟩ := Option.map_eq_some_iff.1 h
    simp
  split at h
  · obtain ⟨text, valid, isLast, htoken⟩ := template?_token h
    simp [htoken]
  split at h
  · rcases nameToken?_token h with ⟨text, htoken⟩ | ⟨text, escaped, htoken⟩ <;> simp [htoken]
  · exact .inl h

theorem size_of_mark {m : String} (h : lexeme? n cs = some l) (hl : l.token = .mark m) : l.size = m.length := by
  cases cs with
  | nil =>
    obtain rfl := Option.some.inj h
    cases hl
  | cons c cs =>
    rcases mark?_or_of_lexeme? h with hmark | ⟨hmark, -⟩
    · obtain ⟨m', -, heq, -⟩ := mark?_eq_some hmark
      rw [heq] at hl ⊢
      injection hl with hm
      rw [hm]
    · exact absurd hl (hmark m)

theorem token_ne_stop (h : lexeme? n cs = some l) (hcs : cs ≠ []) : l.token ≠ .stop ∧ l.token ≠ .invalid := by
  obtain ⟨c, cs, rfl⟩ := List.exists_cons_of_ne_nil hcs
  rcases mark?_or_of_lexeme? h with hmark | ⟨-, hne⟩
  · obtain ⟨m, -, heq, -⟩ := mark?_eq_some hmark
    rw [heq]
    exact ⟨nofun, nofun⟩
  · exact hne

/-- A token is the same in front of another line. -/
theorem lexeme?_newline (h : lexeme? n cs = some l) (hcs : cs ≠ []) (hn : cs.length ≤ n) (hm : n ≤ m)
    (ds : List Char) : lexeme? m (cs ++ '\n' :: ds) = some (l.before ('\n' :: ds)) := by
  have hstops : Stops ('\n' :: ds) := by
    intro c hc
    obtain rfl := Option.some.inj hc
    decide
  obtain ⟨c, cs, rfl⟩ := List.exists_cons_of_ne_nil hcs
  have hhead : (cs ++ '\n' :: ds).head?.any Char.isDigit = cs.head?.any Char.isDigit := by
    cases cs <;> rfl
  rw [lexeme?] at h
  rw [List.cons_append, lexeme?, hhead]
  split at h
  · next hnumber =>
    rw [if_pos hnumber]
    exact number?_append h hstops
  next hnumber =>
  rw [if_neg hnumber]
  split at h
  · next hquote =>
    obtain ⟨e, he, rfl⟩ := Option.map_eq_some_iff.1 h
    rw [if_pos hquote, string?, stringPoints?_append he hm]
    rfl
  next hquote =>
  rw [if_neg hquote]
  split at h
  · next htick => rw [if_pos htick, template?_newline h]
  next htick =>
  rw [if_neg htick]
  split at h
  · next hname =>
    rw [if_pos hname, ← List.cons_append, nameToken?_newline h hn hm]
  · next hname =>
    rw [if_neg hname, ← List.cons_append, mark?_newline, h]
    rfl

end Relabel.Script
