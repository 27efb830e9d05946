import Relabel.Proofs.SourceMap.Position

/-!
# Positions follow the text

A text may be written in parts from any position, so what stands between two boundaries leads from the
position of the first one to that of the second. This holds in words, also where a line or a column that
is too great for its word comes round to zero. The order of the text is another matter: where a word comes
round for the first time, the position falls behind that of the character before it
(`InWords.append_singleton`). So later boundaries have later positions exactly as long as no word comes
round (`increasing_iff_fits`), and below `2 ^ 32` bytes none does.
-/

namespace Relabel.Position
open Text
variable {a cs part : List Char} {c : Char} {m n : Nat}

/-- No line and no column of a text is too great for its word. -/
def Fits (cs : List Char) : Prop :=
  ∀ a, a <+: cs → InWords a

/-- A later boundary of a text has a later position. -/
def Increasing (cs : List Char) : Prop :=
  ∀ m n, Boundary cs m → Boundary cs n → m < n → ofOffset cs m < ofOffset cs n

theorem fits_of_size (h : size cs < 2 ^ 32) : Fits cs := by
  rintro a ⟨b, rfl⟩
  rw [size_append] at h
  exact inWords_of_size (by omega)

/-- What stands between two boundaries leads from one to the other. -/
theorem ofOffset_advance (hm : Boundary cs m) (hn : Boundary cs n) (h : m ≤ n) :
    ∃ part, slice? cs ⟨m, n⟩ = some part ∧ (ofOffset cs m).advance part = ofOffset cs n := by
  obtain ⟨a, b, c, rfl, rfl, rfl⟩ := hm.exists_append₃ hn h
  refine ⟨b, slice?_eq_some_iff.2 ⟨a, c, rfl, rfl, rfl⟩, ?_⟩
  rw [← size_append, ofOffset_append, ofText_append, List.append_assoc, ofOffset_append]

/-! ### Where a word comes round -/

theorem units_le_two (c : Char) : units c ≤ 2 := by
  unfold units
  split <;> omega

/-- As long as the position grows with each character, the words hold. -/
theorem InWords.append_singleton (h : InWords a) (hlt : ofText a < ofText (a ++ [c])) :
    InWords (a ++ [c]) := by
  have hline := h.line
  have hcolumn := h.column
  rw [lt_iff, h.line_ofText, h.column_ofText] at hlt
  by_cases hc : c = '\n'
  · subst hc
    have hlast : lastLine (a ++ ['\n']) = [] := lastLine_append_cons a (by simp)
    have hbreaks : breaks (a ++ ['\n']) = breaks a + 1 := breaks_append ..
    refine ⟨?_, by rw [hlast]; decide⟩
    -- the line would be the first one again
    by_contra hover
    have hzero : (ofText (a ++ ['\n'])).line.toNat = 0 := by
      rw [ofText, hbreaks, show breaks a + 1 = 2 ^ 32 by omega]
      rfl
    have hstart : (ofText (a ++ ['\n'])).column.toNat = 0 := by
      rw [ofText, hlast]
      rfl
    omega
  · have hnone : '\n' ∉ [c] := by simpa using Ne.symm hc
    have hlast : width (lastLine (a ++ [c])) = width (lastLine a) + units c := by
      rw [lastLine_append_of_not_mem a hnone, width_append]
      rfl
    have hbreaks : breaks (a ++ [c]) = breaks a := by
      rw [breaks_append, breaks_eq_zero.2 hnone, Nat.add_zero]
    have hsame : (ofText (a ++ [c])).line.toNat = breaks a := by
      rw [ofText, hbreaks]
      exact UInt32.toNat_ofNat_of_lt' hline
    refine ⟨hbreaks ▸ hline, ?_⟩
    -- the column would be one of the first two again
    by_contra hover
    have hunits := units_le_two c
    have hround : (ofText (a ++ [c])).column.toNat = width (lastLine (a ++ [c])) - 2 ^ 32 := by
      rw [ofText, UInt32.toNat_ofNat']
      omega
    omega

/-- Positions are in the order of the text exactly as long as no word comes round. -/
theorem increasing_iff_fits : Increasing cs ↔ Fits cs := by
  constructor
  · rintro h a ⟨b, rfl⟩
    induction a using List.reverseRecOn generalizing b with
    | nil => exact inWords_of_size (by decide)
    | append_singleton a c ih =>
      have hwords := ih (c :: b) (by rwa [List.append_cons])
      have hbefore : Boundary (a ++ [c] ++ b) (size a) := ⟨a, [c] ++ b, by simp, rfl⟩
      have hbehind : Boundary (a ++ [c] ++ b) (size (a ++ [c])) := ⟨a ++ [c], b, rfl, rfl⟩
      have hlt : size a < size (a ++ [c]) := by
        have := utf8Size_pos c
        simp only [size_append, size_cons, size_nil]
        omega
      have hpos := h _ _ hbefore hbehind hlt
      rw [ofOffset_append, List.append_assoc, ofOffset_append] at hpos
      exact hwords.append_singleton hpos
  · intro h m n hm hn hmn
    obtain ⟨a, b, c, rfl, rfl, rfl⟩ := hm.exists_append₃ hn (Nat.le_of_lt hmn)
    have hb : b ≠ [] := by
      rintro rfl
      simp at hmn
    have ha : InWords a := h a ⟨b ++ c, by simp⟩
    have hab : InWords (a ++ b) := h (a ++ b) ⟨c, rfl⟩
    rw [← size_append, ofOffset_append, List.append_assoc, ofOffset_append]
    exact ha.ofText_lt hab hb

theorem Increasing.ofOffset_inj (h : Increasing cs) (hm : Boundary cs m) (hn : Boundary cs n) :
    ofOffset cs m = ofOffset cs n ↔ m = n := by
  refine ⟨fun heq => ?_, fun heq => heq ▸ rfl⟩
  rcases Nat.lt_trichotomy m n with hlt | rfl | hlt
  · exact absurd heq (ne_of_lt (h m n hm hn hlt))
  · rfl
  · exact absurd heq.symm (ne_of_lt (h n m hn hm hlt))

/-- Writing a text in two parts is writing it, from any position, and between two boundaries of a text
stands what leads from one position to the other. In a text shorter than `2 ^ 32` bytes later boundaries have
later positions, and so different boundaries different ones. In any text they have later ones exactly if
every line and column of the text fits its word. -/
theorem follows_text :
    (∀ (p : Position) (a b : List Char), p.advance (a ++ b) = (p.advance a).advance b) ∧
    ∀ cs : List Char,
      (∀ m n, Boundary cs m → Boundary cs n → m ≤ n →
        ∃ part, slice? cs ⟨m, n⟩ = some part ∧ (ofOffset cs m).advance part = ofOffset cs n) ∧
      (Increasing cs ↔ Fits cs) ∧
      (size cs < 2 ^ 32 → Increasing cs ∧
        ∀ m n, Boundary cs m → Boundary cs n → (ofOffset cs m = ofOffset cs n ↔ m = n)) := by
  refine ⟨advance_append, fun cs => ⟨fun m n => ofOffset_advance, increasing_iff_fits, fun hsize => ?_⟩⟩
  have hincreasing := increasing_iff_fits.2 (fits_of_size hsize)
  exact ⟨hincreasing, fun m n => hincreasing.ofOffset_inj⟩

/-- The boundaries of a character of two units, behind a line break. -/
theorem follows_text_pair :
    let cs := "a\n😀bc".toList
    Boundary cs 2 ∧ Boundary cs 6 ∧ ofOffset cs 2 = ⟨1, 0⟩ ∧ ofOffset cs 6 = ⟨1, 2⟩ ∧
      (∃ part, slice? cs ⟨2, 6⟩ = some part ∧ (ofOffset cs 2).advance part = ofOffset cs 6) ∧
      size cs < 2 ^ 32 ∧ ofOffset cs 2 < ofOffset cs 6 ∧ (ofOffset cs 2 = ofOffset cs 6 ↔ 2 = 6) := by
  intro cs
  have h2 : Boundary cs 2 := by decide
  have h6 : Boundary cs 6 := by decide
  have hsize : size cs < 2 ^ 32 := by decide
  obtain ⟨hpart, -, hshort⟩ := follows_text.2 cs
  obtain ⟨hincreasing, hinj⟩ := hshort hsize
  exact ⟨h2, h6, by decide, by decide, hpart 2 6 h2 h6 (by decide), hsize,
    hincreasing 2 6 h2 h6 (by decide), hinj 2 6 h2 h6⟩

/-! ### A line as long as there are words -/

theorem width_replicate (n : Nat) : width (.replicate n 'a') = n := by
  induction n with
  | zero => rfl
  | succ n ih =>
    rw [List.replicate_succ, width, ih, show units 'a' = 1 by decide, Nat.add_comm]

theorem size_letters : size (.replicate UInt32.size 'a') = UInt32.size := by
  rw [size_replicate, show 'a'.utf8Size = 1 by decide, Nat.mul_one]

/-- The column at the end of `2 ^ 32` letters is that of their start. -/
theorem ofOffset_letters :
    ofOffset (.replicate UInt32.size 'a') UInt32.size = ofOffset (.replicate UInt32.size 'a') 0 := by
  have hsize := size_letters
  -- as long as nothing says how many they are, the letters are not written out
  generalize hcs : List.replicate UInt32.size 'a' = cs at hsize ⊢
  have hnone : '\n' ∉ cs := fun h => by
    rw [← hcs] at h
    exact absurd (List.eq_of_mem_replicate h) (by decide)
  have hline : lastLine cs = cs := lastLine_append_of_not_mem [] hnone
  have hend := ofOffset_append cs []
  have hstart := ofOffset_append [] cs
  rw [List.append_nil, hsize] at hend
  rw [List.nil_append, size_nil] at hstart
  rw [hend, hstart, ofText, breaks_eq_zero.2 hnone, hline, ← hcs, width_replicate]
  rfl

/-- So these boundaries have one position, and positions are not in the order of such a text. -/
theorem not_increasing_letters : ¬ Increasing (.replicate UInt32.size 'a') := by
  intro h
  have hstart : Boundary (.replicate UInt32.size 'a') 0 := ⟨[], _, rfl, rfl⟩
  have hend : Boundary (.replicate UInt32.size 'a') UInt32.size := ⟨_, [], (List.append_nil _).symm, size_letters⟩
  exact ne_of_lt (h _ _ hstart hend (by decide)) ofOffset_letters.symm

end Relabel.Position
