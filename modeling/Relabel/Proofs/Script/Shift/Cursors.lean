import Relabel.Proofs.Script.Placement
import Relabel.Proofs.Script.Shift.Trees

/-!
# Text that stands further back

A cursor whose text stands further back reads the same tokens there, and repetitions may have more room
(`Cursor.Shifted`). What bounds the reading of a single token plays no part in that, as long as it is no shorter than
the text.
-/

namespace Relabel.Script
open Text
variable {k : Move} {n m b b' last offset : Nat} {c c' : Cursor} {cs rest : List Char} {part : GapPart}

/-! ### Bounds -/

theorem spelled?_bound {ok : Char → Bool} (hn : cs.length ≤ n) (hm : cs.length ≤ m) :
    spelled? ok n cs = spelled? ok m cs := by
  induction n generalizing ok cs m with
  | zero =>
    obtain rfl := List.eq_nil_of_length_eq_zero (Nat.le_zero.1 hn)
    cases m <;> rfl
  | succ n ih =>
    cases cs with
    | nil => cases m <;> rfl
    | cons c cs =>
      rw [List.length_cons] at hn hm
      obtain ⟨m, rfl⟩ : ∃ k, m = k + 1 := ⟨m - 1, by omega⟩
      by_cases hspells : ∃ xs, c = '\\' ∧ cs = 'u' :: xs
      · obtain ⟨xs, rfl, rfl⟩ := hspells
        rw [spelled?, spelled?]
        cases hpoint : codePoint? xs with
        | none => rfl
        | some p =>
          have hlen : p.2.2.length + 3 ≤ xs.length := (codePoint?_append hpoint []).2
          rw [List.length_cons] at hn hm
          simp only [Option.bind_eq_bind, Option.bind_some, ih (m := m) (show p.2.2.length ≤ n by omega) (by omega)]
      · have hne : ∀ xs, c = '\\' → cs = 'u' :: xs → False := fun xs hc hxs => hspells ⟨xs, hc, hxs⟩
        rw [spelled?, spelled?, ih (m := m) (Nat.le_of_succ_le_succ hn) (Nat.le_of_succ_le_succ hm)]
        · exact hne
        · exact hne

theorem nameToken?_bound (hn : cs.length ≤ n) (hm : cs.length ≤ m) : nameToken? n cs = nameToken? m cs := by
  have hname {ds : List Char} (h : ds.length ≤ cs.length) : name? n ds = name? m ds := by
    rw [name?, name?, spelled?_bound (Nat.le_trans h hn) (Nat.le_trans h hm)]
  rw [nameToken?.eq_def, nameToken?.eq_def]
  split
  · next ds => rw [hname (Nat.le_succ _)]
  · rw [hname (Nat.le_refl _)]

theorem stringPoints?_bound {quote : Char} (hn : cs.length ≤ n) (hm : cs.length ≤ m) :
    stringPoints? quote n cs = stringPoints? quote m cs := by
  induction n generalizing cs m with
  | zero =>
    obtain rfl := List.eq_nil_of_length_eq_zero (Nat.le_zero.1 hn)
    cases m <;> rfl
  | succ n ih =>
    cases cs with
    | nil => cases m <;> rfl
    | cons c cs =>
      rw [List.length_cons] at hn hm
      obtain ⟨m, rfl⟩ : ∃ k, m = k + 1 := ⟨m - 1, by omega⟩
      by_cases hslash : c = '\\'
      · subst hslash
        rw [stringPoints?, stringPoints?]
        cases hescape : escape? cs with
        | none => rfl
        | some e =>
          have hlen := (takes_escape? hescape).length_le
          simp only [Option.bind_eq_bind, Option.bind_some, ih (m := m) (show e.rest.length ≤ n by omega) (by omega)]
      · rw [stringPoints?, stringPoints?, ih (m := m) (by omega) (by omega)]
        · exact fun h => hslash h
        · exact fun h => hslash h

theorem lexeme?_bound (hn : cs.length ≤ n) (hm : cs.length ≤ m) : lexeme? n cs = lexeme? m cs := by
  cases cs with
  | nil => rfl
  | cons c cs =>
    have hn' := Nat.le_trans (Nat.le_succ cs.length) hn
    have hm' := Nat.le_trans (Nat.le_succ cs.length) hm
    rw [lexeme?, lexeme?, nameToken?_bound hn hm, string?, string?, stringPoints?_bound hn' hm']

/-! ### Gaps -/

/-- A gap that stands further back. -/
def Gap.shifted (n : Nat) (g : Gap) : Gap :=
  { g with offset := g.offset + n }

theorem gap?_shifted (n : Nat) (newline : Bool) (offset : Nat) (part : GapPart) (cs : List Char) :
    gap? newline (offset + n) part cs = (gap? newline offset part cs).map (Gap.shifted n) := by
  fun_induction gap? newline offset part cs with
  | case1 => rfl
  | case2 newline offset part hpart =>
    cases part with
    | blank => rfl
    | lineComment => rfl
    | blockComment => exact absurd rfl hpart
  | case3 newline offset cs ih => rw [← ih, Nat.add_right_comm, gap?]
  | case4 newline offset cs ih => rw [← ih, Nat.add_right_comm, gap?]
  | case5 newline offset cs ih => rw [← ih, Nat.add_right_comm, gap?]
  | case6 newline offset c cs h1 h2 hline ih =>
    rw [← ih, Nat.add_right_comm, gap?, if_pos hline]
    · exact h1
    · exact h2
  | case7 newline offset c cs h1 h2 hline hblank ih =>
    rw [← ih, Nat.add_right_comm, gap?, if_neg hline, if_pos hblank]
    · exact h1
    · exact h2
  | case8 newline offset c cs h1 h2 hline hblank =>
    rw [gap?, if_neg hline, if_neg hblank]
    · rfl
    · exact h1
    · exact h2
  | case9 newline offset c cs hline ih => rw [← ih, Nat.add_right_comm, gap?, if_pos hline]
  | case10 newline offset c cs hline ih => rw [← ih, Nat.add_right_comm, gap?, if_neg hline]
  | case11 newline offset c cs hclose ih =>
    rw [← ih, Nat.add_right_comm, gap?]
    exact hclose

/-! ### Cursors -/

/-- The second cursor stands where the first one does in text that stands further back, and repetitions have no less
room. -/
structure Cursor.Shifted (k : Move) (c c' : Cursor) : Prop where
  token : c'.token = c.token
  start : c'.start = k.place c.start
  stop : c'.stop = k.place c.stop
  newline : c'.newline = c.newline
  last : c'.last = k.place c.last
  rest : c'.rest = c.rest
  start_pos : 0 < c.start
  stop_pos : 0 < c.stop
  fuel : c.rest.length ≤ c.bound
  bound : c.bound ≤ c'.bound

namespace Cursor

theorem shifted_reading (hoffset : 0 < offset) (hfuel : cs.length ≤ b) (hb : b ≤ b') :
    (reading b last offset part cs).Shifted k (reading b' (k.place last) (k.place offset) part cs) := by
  rw [reading, reading, Move.place_of_pos hoffset, gap?_shifted]
  cases hg : gap? false offset part cs with
  | none =>
    have hplace := (k.place_of_pos hoffset).symm
    exact ⟨rfl, hplace, hplace, rfl, rfl, rfl, hoffset, hoffset, Nat.zero_le b, hb⟩
  | some g =>
    obtain ⟨n, hn, hgap⟩ := takes_gap? hg
    have hrest := Nat.le_trans hgap.length_le hfuel
    have hpos : 0 < g.offset := by omega
    have hplace : g.offset + k.back = k.place g.offset := (k.place_of_pos hpos).symm
    have hlexeme : lexeme? b' (g.shifted k.back).rest = lexeme? b g.rest :=
      lexeme?_bound (Nat.le_trans hrest hb) hrest
    simp only [Option.map_some, Option.bind_eq_bind, Option.bind_some, hlexeme]
    cases hl : lexeme? b g.rest with
    | none =>
      have hplace := (k.place_of_pos hoffset).symm
      exact ⟨rfl, hplace, hplace, rfl, rfl, rfl, hoffset, hoffset, Nat.zero_le b, hb⟩
    | some l =>
      have hle := Nat.le_trans (takes_lexeme? hl).length_le hrest
      have hstop : g.offset + k.back + l.size = k.place (g.offset + l.size) := by rw [hplace, k.place_add hpos]
      exact ⟨rfl, hplace, hstop, rfl, rfl, rfl, hpos, Nat.add_pos_left hpos _, hle, hb⟩

namespace Shifted

theorem next (h : c.Shifted k c') : c.next.Shifted k c'.next := by
  rw [Cursor.next, Cursor.next, h.stop, h.rest]
  exact shifted_reading h.stop_pos h.fuel h.bound

theorem reread {l : Option Lexeme} (h : c.Shifted k c') (hl : ∀ x ∈ l, x.rest.length ≤ c.rest.length) :
    (c.reread l).Shifted k (c'.reread l) := by
  cases l with
  | none => exact ⟨rfl, h.start, h.stop, h.newline, h.last, h.rest, h.start_pos, h.stop_pos, h.fuel, h.bound⟩
  | some l =>
    have hstop : c'.start + l.size = k.place (c.start + l.size) := by rw [h.start, k.place_add h.start_pos]
    exact ⟨rfl, h.start, hstop, h.newline, h.last, rfl, h.start_pos, Nat.add_pos_left h.start_pos _,
      Nat.le_trans (hl l rfl) h.fuel, h.bound⟩

theorem asRegex (h : c.Shifted k c') : c.asRegex.Shifted k c'.asRegex := by
  rw [Cursor.asRegex, Cursor.asRegex, h.token, h.rest]
  split
  · refine h.reread fun l hl => ?_
    obtain ⟨_, -, -, htakes⟩ := takes_regex? hl
    exact htakes.length_le
  · refine h.reread fun l hl => ?_
    obtain ⟨_, -, hpos, htakes⟩ := takes_regex? hl
    exact (@Takes.of_append _ _ _ ['='] htakes hpos).length_le
  · exact h

theorem asTemplate (h : c.Shifted k c') : c.asTemplate.Shifted k c'.asTemplate := by
  rw [Cursor.asTemplate, Cursor.asTemplate, h.token, h.rest]
  split
  · refine h.reread fun l hl => ?_
    obtain ⟨_, -, htakes⟩ := takes_template? hl
    exact htakes.length_le
  · exact h

end Shifted

end Cursor

end Relabel.Script
