import Relabel.Proofs.Removal.Appended
import Relabel.Proofs.Script.Shift.Statements

/-!
# Programs behind programs

A program on lines behind another one is read as it is alone, further back, if it opens with a word with which no phrase
goes on (`IsReadIn.append`). What is read of the first one ends before the line, and what is read of the second one
begins there.
-/

namespace Relabel.Script
open Text Fragment Reading
variable {s : Sequel} {k : Move} {c c' d : Cursor} {cs ds rest : List Char} {ts us acc : List Tree}
  {depth depth' n m last last' : Nat}

/-! ### Rounds further back -/

theorem run_shifted (hdepth : depth ≤ depth') (h : (repeatUpTo (programStep depth) n acc).run c = some (ts, d))
    (hc : c.Shifted k c') (hn : n ≤ m) (acc' : List Tree) :
    ∃ us d', ts = us ++ acc ∧
      (repeatUpTo (programStep depth') m acc').run c' = some (Tree.shiftedAll k us ++ acc', d') ∧
      d.Shifted k d' ∧ ∀ u ∈ us, 0 < u.span.start := by
  induction n generalizing acc acc' c c' m with
  | zero => cases h
  | succ n ih =>
    obtain ⟨m, rfl⟩ : ∃ k, m = k + 1 := ⟨m - 1, by omega⟩
    by_cases hstop : c.token = .stop
    · rw [run_repeatUpTo_none (run_programStep_stop hstop acc)] at h
      obtain ⟨rfl, rfl⟩ := Prod.mk.inj (Option.some.inj h)
      have hstop' : c'.token = .stop := hc.token.trans hstop
      exact ⟨[], c', rfl, run_repeatUpTo_none (run_programStep_stop hstop' acc'), hc, by simp⟩
    · rw [repeatUpTo, StateT.run_bind, run_programStep_of_ne hstop] at h
      cases hrun : (rules depth (.statement .top) { awaits := true }).run c with
      | none => simp [hrun] at h
      | some p =>
        obtain ⟨t, c₁⟩ := p
        rw [hrun] at h
        obtain ⟨c₁', hrun', hc₁⟩ := (shifts_rules (k := k) hdepth (.statement .top) { awaits := true }).run hc hrun
        obtain ⟨us, d', rfl, hrest, hd, hpos⟩ := ih h hc₁ (Nat.le_of_succ_le_succ hn) (t.shifted k :: acc')
        have hstop' : c'.token ≠ .stop := hc.token ▸ hstop
        have hstep : (programStep depth' acc').run c' = some (some (t.shifted k :: acc'), c₁') := by
          rw [run_programStep_of_ne hstop', hrun']
          rfl
        refine ⟨us ++ [t], d', by simp, ?_, hd, fun u hu => ?_⟩
        · rw [run_repeatUpTo_some hstep, hrest, IsShift.shiftedAll_append, List.append_assoc]
          rfl
        · rcases List.mem_append.1 hu with hu | hu
          · exact hpos u hu
          · rw [List.mem_singleton.1 hu, span_of_run_statement hrun]
            exact hc.start_pos

/-! ### Lines of their own -/

/-- A text that stands on lines of its own behind a program: it opens with a word with which no phrase goes on, or
nothing but a gap stands there. -/
def BeginsAnew (cs : List Char) : Prop :=
  gapRest? .blank cs = some [] ∨
    ∃ word rest, word ∉ joiningWords ∧ isName word = true ∧ EndsName rest ∧ cs = word.toList ++ rest

theorem BeginsAnew.opens (h : BeginsAnew cs) {b : Nat} (hb : cs.length ≤ b) (last offset : Nat) :
    (Cursor.reading b last offset .blank cs).token = .stop ∨ (Cursor.reading b last offset .blank cs).token.Opens := by
  rcases h with hgap | ⟨word, rest, hword, hname, hends, rfl⟩
  · exact .inl (token_reading_of_gap hgap ..)
  · exact .inr ⟨word, hword, (reading_isName hname hends hb last offset).1⟩

theorem BeginsAnew.of_word {word : String} {ch : Char} (hword : word ∉ joiningWords) (hname : isName word = true)
    (hch : continuesName ch = false ∧ ch ≠ '\\') (rest : List Char) : BeginsAnew (word.toList ++ ch :: rest) := by
  refine .inr ⟨word, ch :: rest, hword, hname, ?_, rfl⟩
  rintro d ds h
  obtain ⟨rfl, -⟩ := List.cons.inj h
  exact hch

/-- On a line of its own behind a program a text is read from where it is read behind an empty one. -/
theorem shifted_entry (hbound : s.text.length < s.bound) (hopens : BeginsAnew s.text) (last : Nat) :
    (Cursor.first ('\n' :: s.text)).Shifted ⟨last, size s.program⟩ (s.entry last) := by
  let b := s.text.length + 1
  have hfirst : Cursor.first ('\n' :: s.text) = { Cursor.reading b 0 1 .blank s.text with newline := true } := by
    have hvalid : (Cursor.reading b 0 1 .blank s.text).token ≠ .invalid := by
      rcases hopens.opens (Nat.le_succ _) 0 1 with h | ⟨w, -, h⟩ <;> simp [b, h]
    obtain ⟨g, l, hg, hl, hreading⟩ := Cursor.reading_of_ne_invalid hvalid
    have hgap : gap? false 0 .blank ('\n' :: s.text) = some { g with newline := true } := by
      have hline := gap?_newline (show gap? false 0 .blank [] = some ⟨false, 0, []⟩ from rfl) s.text
      rw [List.nil_append, if_pos rfl, gap?_true false, hg] at hline
      exact hline
    rw [first_of_ne_hashbang (by simp), hreading, Cursor.reading, hgap]
    simp [hl, b]
  have hshifted : (Cursor.reading b 0 1 .blank s.text).Shifted ⟨last, size s.program⟩
      (Cursor.reading s.bound last (size s.program + 1) .blank s.text) := by
    have hplace : Move.place ⟨last, size s.program⟩ 1 = size s.program + 1 := Nat.add_comm ..
    rw [← hplace]
    exact Cursor.shifted_reading Nat.one_pos (Nat.le_succ _) hbound
  rw [hfirst, Sequel.entry]
  exact ⟨hshifted.token, hshifted.start, hshifted.stop, rfl, hshifted.last, hshifted.rest, hshifted.start_pos,
    hshifted.stop_pos, hshifted.fuel, hshifted.bound⟩

/-- A program on lines behind another one is read as it is alone. -/
theorem IsReadIn.append (h : IsReadIn n cs ts last) (h' : IsReadIn m ('\n' :: ds) us last') (hds : BeginsAnew ds)
    (hm : 0 < m) :
    IsReadIn (n + m - 1) (cs ++ '\n' :: ds) (ts ++ Tree.shiftedAll ⟨last, size cs⟩ us)
      (Move.place ⟨last, size cs⟩ last') := by
  let s : Sequel := ⟨cs, ds, (cs ++ '\n' :: ds).length, fun last => hds.opens (by simp; omega) last _⟩
  obtain ⟨-, k, hk, heq⟩ := IsReadIn.longer (s := s) h rfl (show n ≤ n + m - 1 by omega)
  obtain ⟨d, hrun, rfl⟩ := h'
  have hdepth : 5 * ('\n' :: ds).length + 8 ≤ 5 * s.bound + 8 := by simp [s]
  have hbound : s.text.length < s.bound := by simp [s]; omega
  have hentry := shifted_entry hbound hds last
  obtain ⟨vs, d', hvs, hrun', hd, -⟩ := run_shifted hdepth hrun hentry (show m ≤ k by omega) ts.reverse
  rw [List.append_nil] at hvs
  refine ⟨d', ?_, hd.last⟩
  rw [List.reverse_append, ← IsShift.shiftedAll_reverse, hvs]
  exact heq.trans hrun'

/-- On lines of their own the statements of a program do not begin with the text. -/
theorem IsReadIn.start_pos (h : IsReadIn m ('\n' :: ds) us last) (hds : BeginsAnew ds) :
    ∀ u ∈ us, 0 < u.span.start := by
  let s : Sequel := ⟨[], ds, ds.length + 1, fun last => hds.opens (Nat.le_succ _) last _⟩
  obtain ⟨d, hrun, -⟩ := h
  obtain ⟨vs, -, hvs, -, -, hpos⟩ :=
    run_shifted (Nat.le_refl _) hrun (shifted_entry (s := s) (Nat.lt_succ_self _) hds 0) (Nat.le_refl m) []
  rw [List.append_nil] at hvs
  exact fun u hu => hpos u (hvs ▸ List.mem_reverse.2 hu)

end Relabel.Script
