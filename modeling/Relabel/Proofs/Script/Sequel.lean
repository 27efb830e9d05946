import Relabel.Proofs.Script.Gaps
import Relabel.Proofs.Script.Stream

/-!
# Cursors in front of another line

A program is read up to its end over tokens of which none is invalid (`Cursor.Sound`). If another line is
written behind it that is empty or opens with a word with which no phrase goes on (`Sequel`), then a cursor stands
on the same token as before, at the same bytes (`Sequel.longer`), or the program has ended and the cursor stands on
the first token of the other line (`Sequel.entry`).
-/

namespace Relabel.Script
open Text
variable {b m last offset : Nat} {part : GapPart} {cs : List Char} {c c' d : Cursor} {t : Token} {l : Lexeme}

/-- The end of the program is reached from the cursor without an invalid token. -/
inductive Cursor.Sound : Cursor → Prop
  | stop {c : Cursor} : c.token = .stop → c.Sound
  | next {c : Cursor} : c.token ≠ .invalid → c.next.Sound → c.Sound
  | asRegex {c : Cursor} : c.asRegex.Sound → c.Sound
  | asTemplate {c : Cursor} : c.asTemplate.Sound → c.Sound

namespace Cursor

theorem asRegex_eq_self (hslash : c.token ≠ .mark "/") (hdivide : c.token ≠ .mark "/=") : c.asRegex = c := by
  rw [asRegex]
  split
  · exact absurd ‹_› hslash
  · exact absurd ‹_› hdivide
  · rfl

theorem asTemplate_eq_self (h : c.token ≠ .mark closeBrace) : c.asTemplate = c :=
  if_neg h

theorem Sound.ne_invalid (h : c.Sound) : c.token ≠ .invalid := by
  induction h with
  | stop h => simp [h]
  | next h => exact h
  | asRegex _ ih =>
    intro hc
    rw [asRegex_eq_self (by simp [hc]) (by simp [hc])] at ih
    exact ih hc
  | asTemplate _ ih =>
    intro hc
    rw [asTemplate_eq_self (by simp [hc])] at ih
    exact ih hc

/-- Behind a token that can be read in one way only the program is sound as well. -/
theorem Sound.of_next (h : c.Sound) (hstop : c.token ≠ .stop) (hmark : ∀ m, c.token ≠ .mark m) : c.next.Sound := by
  induction h with
  | stop h => exact absurd h hstop
  | next _ h => exact h
  | @asRegex c _ ih =>
    rw [asRegex_eq_self (hmark _) (hmark _)] at ih
    exact ih hstop hmark
  | @asTemplate c _ ih =>
    rw [asTemplate_eq_self (hmark _)] at ih
    exact ih hstop hmark

/-! ### Reading a token -/

theorem reading_of_ne_invalid (h : (reading b last offset part cs).token ≠ .invalid) :
    ∃ g l, gap? false offset part cs = some g ∧ lexeme? b g.rest = some l ∧
      reading b last offset part cs = ⟨l.token, g.offset, g.offset + l.size, g.newline, last, l.rest, b⟩ := by
  rw [reading] at h ⊢
  cases hg : gap? false offset part cs with
  | none => simp [hg] at h
  | some g =>
    cases hl : lexeme? b g.rest with
    | none => simp [hg, hl] at h
    | some l => exact ⟨g, l, rfl, hl, by simp [hl]⟩

end Cursor

/-- The words that a rule looks for where a phrase might end as well, and those that only go with other words. -/
def joiningWords : List String :=
  ["accessor", "as", "assert", "async", "await", "case", "catch", "default", "defer", "else", "extends", "finally",
    "from", "get", "in", "instanceof", "meta", "of", "set", "source", "static", "using", "with", "yield"]

/-- A token with which no phrase goes on if a line ends before it. -/
def Token.Opens (t : Token) : Prop :=
  ∃ word, word ∉ joiningWords ∧ t = .name word false

theorem Token.forall_opens {φ : Token → Prop} (h : ∀ word, word ∉ joiningWords → φ (.name word false)) :
    ∀ t : Token, t.Opens → φ t := by
  rintro _ ⟨word, hword, rfl⟩
  exact h word hword

theorem Token.Opens.ne_word {w : String} (h : t.Opens) (hword : w ∈ joiningWords) : t ≠ .name w false := by
  obtain ⟨opening, hopening, rfl⟩ := h
  rintro ⟨⟩
  exact hopening hword

/-- A word that joins is to be seen neither in a word that opens a line nor at the end of a program. -/
theorem Token.Opens.beq_word {word : String} (h : t.Opens) (hword : word ∈ joiningWords) :
    (t == .name word false) = (Token.stop == .name word false) := by
  rw [beq_false_of_ne (h.ne_word hword)]
  rfl

theorem Token.Opens.beq_mark {mark : String} (h : t.Opens) : (t == .mark mark) = (Token.stop == .mark mark) := by
  obtain ⟨opening, -, rfl⟩ := h
  rfl

/-- A program and another line behind it, and what bounds repetitions in both together. -/
structure Sequel where
  program : List Char
  text : List Char
  bound : Nat
  /-- No phrase goes on with the first word of the line, or nothing stands on it. -/
  opens : ∀ last, (Cursor.reading bound last (size program + 1) .blank text).token = .stop ∨
    (Cursor.reading bound last (size program + 1) .blank text).token.Opens

/-- Nothing but a gap stands in a text, or a first line that names an interpreter before it. -/
def IsGap (cs : List Char) : Prop :=
  gapRest? .blank cs = some [] ∨ ∃ ds, cs = '#' :: '!' :: ds ∧ gapRest? .lineComment ds = some []

namespace Sequel
variable {s : Sequel}

/-- A cursor in the program that another line follows. -/
def longer (s : Sequel) (c : Cursor) : Cursor :=
  { c with rest := c.rest ++ '\n' :: s.text, bound := s.bound }

/-- The cursor on the first token of the other line. -/
def entry (s : Sequel) (last : Nat) : Cursor :=
  { Cursor.reading s.bound last (size s.program + 1) .blank s.text with newline := true }

/-- Between a byte and the text `rest` the program has nothing but a gap, or a first line that names an interpreter
before it. -/
def Behind (s : Sequel) (last : Nat) (rest : List Char) : Prop :=
  ∃ cs, Takes last s.program cs ∧ (gapRest? .blank cs = some rest ∨
    ∃ ds, s.program = '#' :: '!' :: ds ∧ cs = s.program ∧ gapRest? .lineComment ds = some rest)

/-- Behind a byte the program has nothing but a gap. -/
def Ends (s : Sequel) (last : Nat) : Prop :=
  s.Behind last []

theorem Ends.exists_isGap {last : Nat} (h : s.Ends last) : ∃ cs, Takes last s.program cs ∧ IsGap cs := by
  obtain ⟨cs, htakes, hgap | ⟨ds, hds, hcs, hgap⟩⟩ := h
  · exact ⟨cs, htakes, .inl hgap⟩
  · exact ⟨cs, htakes, .inr ⟨ds, hcs.trans hds, hgap⟩⟩

@[simp] theorem entry_newline (s : Sequel) (last : Nat) : (s.entry last).newline = true := rfl

theorem entry_token (s : Sequel) (last : Nat) :
    (s.entry last).token = .stop ∨ (s.entry last).token.Opens :=
  s.opens last

theorem entry_last (s : Sequel) (last : Nat) : (s.entry last).last = last := by
  have hne : (Cursor.reading s.bound last (size s.program + 1) .blank s.text).token ≠ .invalid := by
    rcases s.opens last with h | ⟨w, -, h⟩ <;> simp [h]
  obtain ⟨g, l, -, -, hreading⟩ := Cursor.reading_of_ne_invalid hne
  rw [entry, hreading]

/-- The cursor stands in the program, as far as can be told from it. -/
structure Holds (s : Sequel) (c : Cursor) : Prop where
  rest : Takes c.stop s.program c.rest
  /-- Between the token before and this one stands a gap. -/
  behind : ∃ rest, rest ≠ [] ∧ s.Behind c.last rest ∧ Takes c.start s.program rest
  /-- A mark takes the bytes between start and stop. -/
  mark : ∀ m, c.token = .mark m → c.stop = c.start + m.length
  fuel : c.rest.length ≤ c.bound
  bound : c.bound ≤ s.bound

/-- How cursors in a program, alone and in front of another line, correspond. -/
inductive Alike (s : Sequel) : Cursor → Cursor → Prop
  | inside {c : Cursor} (hc : s.Holds c) (ht : c.token ≠ .stop) : s.Alike c (s.longer c)
  | atEnd {c : Cursor} (ht : c.token = .stop) (hb : c.bound ≤ s.bound) (hends : s.Ends c.last) :
    s.Alike c (s.entry c.last)

theorem entry_bound (s : Sequel) (last : Nat) : (s.entry last).bound = s.bound := by
  have hne : (Cursor.reading s.bound last (size s.program + 1) .blank s.text).token ≠ .invalid := by
    rcases s.opens last with h | ⟨w, -, h⟩ <;> simp [h]
  obtain ⟨g, l, -, -, hreading⟩ := Cursor.reading_of_ne_invalid hne
  rw [entry, hreading]

namespace Alike

theorem last_eq (h : s.Alike c c') : c'.last = c.last := by
  cases h with
  | inside hc ht => rfl
  | atEnd ht hb _ => exact s.entry_last c.last

theorem holds (h : s.Alike c c') (ht : c.token ≠ .stop) : s.Holds c := by
  cases h with
  | inside hc _ => exact hc
  | atEnd hstop _ _ => exact absurd hstop ht

theorem bound_le (h : s.Alike c c') : c.bound ≤ c'.bound := by
  cases h with
  | inside hc ht => exact hc.bound
  | atEnd ht hb _ =>
    rw [entry_bound]
    exact hb

end Alike

theorem reading_longer (h : (Cursor.reading b last offset part cs).token ≠ .invalid)
    (hcs : Takes offset s.program cs) (hbehind : ∀ rest, gapRest? part cs = some rest → s.Behind last rest)
    (hfuel : cs.length ≤ b) (hb : b ≤ s.bound) :
    s.Alike (Cursor.reading b last offset part cs) (Cursor.reading s.bound last offset part (cs ++ '\n' :: s.text)) := by
  obtain ⟨g, l, hg, hl, hreading⟩ := Cursor.reading_of_ne_invalid h
  obtain ⟨k, hk, hgap⟩ := takes_gap? hg
  have hlexeme := takes_lexeme? hl
  have hgap' := gap?_newline hg s.text
  rw [hreading] at h ⊢
  by_cases hrest : g.rest = []
  · -- the gap goes on in the next line
    rw [hrest] at hl hgap
    obtain rfl := Option.some.inj hl
    have hoffset : g.offset = size s.program := by
      have h₁ := hgap.size_eq
      have h₂ := hcs.size_eq
      rw [size_nil] at h₁
      omega
    rw [if_pos hrest, hoffset, gap?_true false] at hgap'
    have hentry : Cursor.reading s.bound last offset part (cs ++ '\n' :: s.text) = s.entry last := by
      have hne : (Cursor.reading s.bound last (size s.program + 1) .blank s.text).token ≠ .invalid := by
        rcases s.opens last with h | ⟨w, -, h⟩ <;> simp [h]
      obtain ⟨g', l', hg', hl', hreading'⟩ := Cursor.reading_of_ne_invalid hne
      rw [hg'] at hgap'
      rw [entry, hreading', Cursor.reading, hgap']
      simp [hl']
    rw [hentry]
    have hends : s.Behind last g.rest := hbehind _ (gapRest?_of_gap? hg)
    rw [hrest] at hends
    exact .atEnd rfl hb hends
  · rw [if_neg hrest] at hgap'
    have hl' := lexeme?_newline hl hrest (Nat.le_trans hgap.length_le hfuel) hb s.text
    have hlonger : Cursor.reading s.bound last offset part (cs ++ '\n' :: s.text) =
        s.longer ⟨l.token, g.offset, g.offset + l.size, g.newline, last, l.rest, b⟩ := by
      rw [Cursor.reading, hgap']
      simp [hl', longer, Lexeme.before]
    rw [hlonger]
    have hstart : Takes g.offset s.program g.rest := (hcs.trans hgap).of_eq hk.symm
    refine .inside ⟨?_, ⟨g.rest, hrest, hbehind _ (gapRest?_of_gap? hg), hstart⟩, fun m hm => ?_, ?_, hb⟩ (token_ne_stop hl hrest).1
    · exact hstart.trans hlexeme
    · show g.offset + l.size = g.offset + m.length
      rw [size_of_mark hl hm]
    · exact Nat.le_trans hlexeme.length_le (Nat.le_trans hgap.length_le hfuel)

/-- The next token is the same, or the program ends. -/
theorem alike_next (hc : s.Holds c) (h : c.next.token ≠ .invalid) : s.Alike c.next (s.longer c).next :=
  reading_longer h hc.rest (fun _ h => ⟨c.rest, hc.rest, .inl h⟩) hc.fuel hc.bound

/-- A mark is read again as the beginning of a longer token. -/
theorem alike_reread {f : List Char → Option Lexeme} {mark : String} (hc : s.Holds c)
    (hmark : c.token = .mark mark) (h : (c.reread (f c.rest)).token ≠ .invalid)
    (hf : ∀ l, f c.rest = some l → (∃ k, l.size = mark.length + k ∧ Takes k c.rest l.rest) ∧
      (∀ m, l.token ≠ .mark m) ∧ l.token ≠ .stop ∧
      f (c.rest ++ '\n' :: s.text) = some (l.before ('\n' :: s.text))) :
    s.Alike (c.reread (f c.rest)) ((s.longer c).reread (f (s.longer c).rest)) := by
  cases hl : f c.rest with
  | none => simp [hl, Cursor.reread] at h
  | some l =>
    obtain ⟨⟨k, hk, htakes⟩, hmarks, hstop, hlonger⟩ := hf l hl
    have heq : (s.longer c).reread (f (s.longer c).rest) = s.longer (c.reread (some l)) := by
      rw [show f (s.longer c).rest = some (l.before ('\n' :: s.text)) from hlonger]
      rfl
    rw [heq]
    refine .inside ⟨?_, hc.behind, fun m hm => absurd hm (hmarks m), Nat.le_trans htakes.length_le hc.fuel, hc.bound⟩ hstop
    have hstop := hc.mark mark hmark
    exact (hc.rest.trans htakes).of_eq (show c.stop + k = c.start + l.size by omega)

theorem regex?_token (h : regex? cs = some l) : ∃ text, l.token = .regex text := by
  simp only [regex?, Option.bind_eq_bind, Option.bind_eq_some_iff, Option.pure_def, Option.some.injEq] at h
  obtain ⟨_, -, _, -, _, -, _, -, rfl⟩ := h
  exact ⟨_, rfl⟩

theorem alike_asRegex (h : s.Alike c c') (hvalid : c.asRegex.token ≠ .invalid) : s.Alike c.asRegex c'.asRegex := by
  cases h with
  | atEnd ht hb hends =>
    have hentry : (s.entry c.last).asRegex = s.entry c.last := by
      rcases s.entry_token c.last with h | ⟨w, -, h⟩ <;> exact Cursor.asRegex_eq_self (by simp [h]) (by simp [h])
    rw [hentry, Cursor.asRegex_eq_self (by simp [ht]) (by simp [ht])]
    exact .atEnd ht hb hends
  | inside hc ht =>
    by_cases hslash : c.token = .mark "/"
    · have hself {c : Cursor} (h : c.token = .mark "/") : c.asRegex = c.reread (regex? c.rest) := by
        simp only [Cursor.asRegex, h]
      rw [hself hslash] at hvalid ⊢
      rw [hself (c := s.longer c) hslash]
      refine alike_reread hc hslash hvalid fun l hl => ?_
      obtain ⟨text, htoken⟩ := regex?_token hl
      obtain ⟨k, hk, -, htakes⟩ := takes_regex? hl
      exact ⟨⟨k, hk, htakes⟩, by simp [htoken], by simp [htoken], regex?_newline hl s.text⟩
    by_cases hdivide : c.token = .mark "/="
    · have hself {c : Cursor} (h : c.token = .mark "/=") : c.asRegex = c.reread (regex? ('=' :: c.rest)) := by
        simp only [Cursor.asRegex, h]
      rw [hself hdivide] at hvalid ⊢
      rw [hself (c := s.longer c) hdivide]
      refine alike_reread (f := fun cs => regex? ('=' :: cs)) hc hdivide hvalid fun l hl => ?_
      obtain ⟨text, htoken⟩ := regex?_token hl
      obtain ⟨k, hk, hpos, htakes⟩ := takes_regex? hl
      have htakes : Takes k (['='] ++ c.rest) l.rest := htakes
      exact ⟨⟨k - 1, by rw [hk, show "/=".length = 2 from rfl]; omega, htakes.of_append hpos⟩, by simp [htoken],
        by simp [htoken], regex?_newline hl s.text⟩
    · rw [Cursor.asRegex_eq_self hslash hdivide, Cursor.asRegex_eq_self (c := s.longer c) hslash hdivide]
      exact .inside hc ht

theorem alike_asTemplate (h : s.Alike c c') (hvalid : c.asTemplate.token ≠ .invalid) :
    s.Alike c.asTemplate c'.asTemplate := by
  cases h with
  | atEnd ht hb hends =>
    have hentry : (s.entry c.last).asTemplate = s.entry c.last := by
      rcases s.entry_token c.last with h | ⟨w, -, h⟩ <;> exact Cursor.asTemplate_eq_self (by simp [h])
    rw [hentry, Cursor.asTemplate_eq_self (by simp [ht])]
    exact .atEnd ht hb hends
  | inside hc ht =>
    by_cases hbrace : c.token = .mark closeBrace
    · have hself {c : Cursor} (h : c.token = .mark closeBrace) :
          c.asTemplate = c.reread (template? [] true 1 c.rest) := if_pos h
      rw [hself hbrace] at hvalid ⊢
      rw [hself (c := s.longer c) hbrace]
      refine alike_reread hc hbrace hvalid fun l hl => ?_
      obtain ⟨text, valid, isLast, htoken⟩ := template?_token hl
      exact ⟨takes_template? hl, by simp [htoken], by simp [htoken], template?_newline hl s.text⟩
    · rw [Cursor.asTemplate_eq_self hbrace, Cursor.asTemplate_eq_self (c := s.longer c) hbrace]
      exact .inside hc ht

end Sequel

end Relabel.Script
