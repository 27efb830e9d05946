import Relabel.Proofs.Text.Boundary
import Relabel.SourceMap.Mappings

/-!
# Positions and byte offsets

Writing a text on is a homomorphism (`ofText_append`), in words and so without any bound. The order
of positions needs one: in a text shorter than 2 ^ 32 bytes neither the lines nor the columns wrap,
and a later boundary has a later position (`ofText_lt`). With both, moving a position along with an
edit is moving its byte offset (`shift?_ofOffset`).
-/

namespace Relabel.Position
open Text
variable {a b c cs : List Char} {m n : Nat} {p q : Position}

/-! ### Order -/

theorem lt_iff : p < q ↔ p.line.toNat < q.line.toNat ∨
    p.line.toNat = q.line.toNat ∧ p.column.toNat < q.column.toNat := by
  rw [← UInt32.lt_iff_toNat_lt, ← UInt32.lt_iff_toNat_lt, UInt32.toNat_inj]
  rfl

theorem le_iff : p ≤ q ↔ p.line.toNat < q.line.toNat ∨
    p.line.toNat = q.line.toNat ∧ p.column.toNat ≤ q.column.toNat := by
  rw [← UInt32.lt_iff_toNat_lt, ← UInt32.le_iff_toNat_le, UInt32.toNat_inj]
  rfl

theorem le_refl (p : Position) : p ≤ p := le_iff.2 (.inr ⟨rfl, Nat.le_refl _⟩)

theorem le_of_lt (h : p < q) : p ≤ q := by
  rw [lt_iff] at h
  rw [le_iff]
  omega

theorem not_le_of_lt (h : p < q) : ¬ q ≤ p := by
  rw [lt_iff] at h
  rw [le_iff]
  omega

theorem not_lt_of_le (h : p ≤ q) : ¬ q < p := fun hlt => not_le_of_lt hlt h

theorem ne_of_lt (h : p < q) : p ≠ q := by
  rintro rfl
  exact not_le_of_lt h (le_refl p)

/-! ### Lines and columns of a text -/

theorem width_append (a b : List Char) : width (a ++ b) = width a + width b := by
  induction a with
  | nil => simp [width]
  | cons c a ih => simp [width, ih, Nat.add_assoc]

theorem breaks_append (a b : List Char) : breaks (a ++ b) = breaks a + breaks b :=
  List.count_append

theorem breaks_eq_zero : breaks cs = 0 ↔ '\n' ∉ cs :=
  List.count_eq_zero

theorem lastLine_append_of_not_mem (a : List Char) (h : '\n' ∉ b) :
    lastLine (a ++ b) = lastLine a ++ b := by
  have hb : ∀ c ∈ b.reverse, (c != '\n') = true := by
    intro c hc
    rw [bne_iff_ne]
    rintro rfl
    exact h (List.mem_reverse.1 hc)
  rw [lastLine, List.reverse_append, List.takeWhile_append_of_pos hb, List.reverse_append,
    List.reverse_reverse, lastLine]

/-- The last line of a text is what stands behind its last break. -/
theorem lastLine_append_cons (a : List Char) (h : '\n' ∉ b) : lastLine (a ++ '\n' :: b) = b := by
  have := lastLine_append_of_not_mem (a ++ ['\n']) h
  rw [List.append_assoc, List.singleton_append] at this
  rw [this, lastLine, List.reverse_append, List.reverse_singleton, List.singleton_append,
    List.takeWhile_cons_of_neg (by decide)]
  rfl

theorem exists_append_cons (h : '\n' ∈ cs) : ∃ a b, cs = a ++ '\n' :: b ∧ '\n' ∉ b := by
  obtain ⟨b, a, hr, hb⟩ := List.eq_append_cons_of_mem (List.mem_reverse.2 h)
  refine ⟨a.reverse, b.reverse, ?_, by rwa [List.mem_reverse]⟩
  have := congrArg List.reverse hr
  simpa using this

theorem lastLine_append_of_mem (a : List Char) (h : '\n' ∈ b) : lastLine (a ++ b) = lastLine b := by
  obtain ⟨x, y, rfl, hy⟩ := exists_append_cons h
  rw [← List.append_assoc, lastLine_append_cons _ hy, lastLine_append_cons _ hy]

theorem size_lastLine_le (cs : List Char) : size (lastLine cs) ≤ size cs := by
  by_cases h : '\n' ∈ cs
  · obtain ⟨a, b, rfl, hb⟩ := exists_append_cons h
    rw [lastLine_append_cons a hb, size_append, size_cons]
    omega
  · have := lastLine_append_of_not_mem [] h
    rw [List.nil_append] at this
    rw [this]
    exact Nat.le_refl _

theorem units_le (c : Char) : units c ≤ c.utf8Size := by
  have h : c.toNat < 0x10000 ∨ ¬ c.toNat < 0x10000 := by omega
  have hv : c.toNat = c.val.toNat := rfl
  simp only [units, Char.utf8Size, hv, UInt32.le_iff_toNat_le] at h ⊢
  split
  · split_ifs <;> omega
  · next h =>
    rw [if_neg (by simp; omega), if_neg (by simp; omega), if_neg (by simp; omega)]
    omega

theorem width_le (cs : List Char) : width cs ≤ size cs := by
  induction cs with
  | nil => exact Nat.le_refl 0
  | cons c cs ih => exact Nat.add_le_add (units_le c) ih

theorem units_pos (c : Char) : 0 < units c := by
  unfold units
  split <;> omega

theorem width_pos (h : cs ≠ []) : 0 < width cs := by
  cases cs with
  | nil => exact absurd rfl h
  | cons c cs => exact Nat.lt_of_lt_of_le (units_pos c) (Nat.le_add_right ..)

theorem breaks_le (cs : List Char) : breaks cs ≤ size cs := by
  induction cs with
  | nil => exact Nat.le_refl 0
  | cons c cs ih =>
    have h : breaks (c :: cs) ≤ breaks cs + 1 := by
      rw [breaks, List.count_cons]
      split <;> simp [breaks]
    have := utf8Size_pos c
    rw [size_cons]
    omega

/-! ### Positions of a text -/

/-- The line and the column at the end of a text fit their words. -/
structure InWords (cs : List Char) : Prop where
  line : breaks cs < 2 ^ 32
  column : width (lastLine cs) < 2 ^ 32

theorem inWords_of_size (h : size cs < 2 ^ 32) : InWords cs :=
  ⟨Nat.lt_of_le_of_lt (breaks_le cs) h,
    Nat.lt_of_le_of_lt (Nat.le_trans (width_le _) (size_lastLine_le cs)) h⟩

theorem InWords.line_ofText (h : InWords cs) : (ofText cs).line.toNat = breaks cs :=
  UInt32.toNat_ofNat_of_lt' h.line

theorem InWords.column_ofText (h : InWords cs) : (ofText cs).column.toNat = width (lastLine cs) :=
  UInt32.toNat_ofNat_of_lt' h.column

theorem line_ofText (h : size cs < 2 ^ 32) : (ofText cs).line.toNat = breaks cs :=
  (inWords_of_size h).line_ofText

theorem column_ofText (h : size cs < 2 ^ 32) : (ofText cs).column.toNat = width (lastLine cs) :=
  (inWords_of_size h).column_ofText

theorem advance_of_mem (p : Position) (h : '\n' ∈ cs) :
    p.advance cs = ⟨p.line + .ofNat (breaks cs), .ofNat (width (lastLine cs))⟩ := by
  rw [advance, if_pos (List.contains_iff_mem.2 h)]

theorem advance_of_not_mem (p : Position) (h : '\n' ∉ cs) :
    p.advance cs = ⟨p.line, p.column + .ofNat (width cs)⟩ := by
  rw [advance, if_neg (mt List.contains_iff_mem.1 h)]

theorem line_advance (p : Position) (cs : List Char) :
    (p.advance cs).line = p.line + .ofNat (breaks cs) := by
  by_cases h : '\n' ∈ cs
  · rw [advance_of_mem p h]
  · rw [advance_of_not_mem p h, breaks_eq_zero.2 h]
    exact (UInt32.add_zero _).symm

/-- A text may be written in two parts, from any position. -/
theorem advance_append (p : Position) (a b : List Char) :
    p.advance (a ++ b) = (p.advance a).advance b := by
  by_cases hb : '\n' ∈ b
  · rw [advance_of_mem p (List.mem_append_right a hb), advance_of_mem _ hb, line_advance,
      breaks_append, lastLine_append_of_mem a hb, UInt32.ofNat_add, UInt32.add_assoc]
  · by_cases ha : '\n' ∈ a
    · rw [advance_of_mem p (List.mem_append_left b ha), advance_of_not_mem _ hb, advance_of_mem p ha,
        breaks_append, breaks_eq_zero.2 hb, Nat.add_zero, lastLine_append_of_not_mem a hb, width_append,
        UInt32.ofNat_add]
    · rw [advance_of_not_mem p fun h => (List.mem_append.1 h).elim ha hb, advance_of_not_mem _ hb,
        advance_of_not_mem p ha, width_append, UInt32.ofNat_add, UInt32.add_assoc]

/-- A text that starts a document is written from the first place. -/
theorem ofText_eq_advance (cs : List Char) : ofText cs = advance ⟨0, 0⟩ cs := by
  by_cases h : '\n' ∈ cs
  · rw [advance_of_mem _ h, ofText, UInt32.zero_add]
  · have hline := lastLine_append_of_not_mem [] h
    rw [List.nil_append] at hline
    rw [advance_of_not_mem _ h, ofText, breaks_eq_zero.2 h, hline, UInt32.zero_add]
    rfl

/-- Writing on from the end of a text. -/
theorem ofText_append (a b : List Char) : ofText (a ++ b) = (ofText a).advance b := by
  rw [ofText_eq_advance, ofText_eq_advance, advance_append]

/-- A text that goes on ends later, as long as the words hold where it ends. -/
theorem InWords.ofText_lt (ha : InWords a) (h : InWords (a ++ b)) (hb : b ≠ []) :
    ofText a < ofText (a ++ b) := by
  rw [lt_iff, h.line_ofText, ha.line_ofText, h.column_ofText, ha.column_ofText, breaks_append]
  by_cases hn : '\n' ∈ b
  · have := mt breaks_eq_zero.1 (not_not.2 hn)
    omega
  · rw [lastLine_append_of_not_mem a hn, width_append]
    have := width_pos hb
    have := breaks_eq_zero.2 hn
    omega

/-- A text that goes on ends later, unless it is too long. -/
theorem ofText_lt (h : size (a ++ b) < 2 ^ 32) (hb : b ≠ []) : ofText a < ofText (a ++ b) := by
  have ha : size a < 2 ^ 32 := by
    rw [size_append] at h
    omega
  exact (inWords_of_size ha).ofText_lt (inWords_of_size h) hb

/-! ### Boundaries -/

theorem ofOffset_append (a b : List Char) : ofOffset (a ++ b) (size a) = ofText a := by
  rw [ofOffset, before_append]

theorem ofOffset_lt (hcs : size cs < 2 ^ 32) (hm : Boundary cs m) (hn : Boundary cs n) (h : m < n) :
    ofOffset cs m < ofOffset cs n := by
  obtain ⟨a, b, c, rfl, rfl, rfl⟩ := hm.exists_append₃ hn (Nat.le_of_lt h)
  rw [← size_append, ofOffset_append, List.append_assoc, ofOffset_append]
  refine ofText_lt ?_ ?_
  · rw [size_append] at hcs
    omega
  · rintro rfl
    simp at h

theorem ofOffset_le (hcs : size cs < 2 ^ 32) (hm : Boundary cs m) (hn : Boundary cs n) (h : m ≤ n) :
    ofOffset cs m ≤ ofOffset cs n := by
  rcases Nat.eq_or_lt_of_le h with rfl | h
  · exact le_refl _
  · exact le_of_lt (ofOffset_lt hcs hm hn h)

theorem ofOffset_le_iff (hcs : size cs < 2 ^ 32) (hm : Boundary cs m) (hn : Boundary cs n) :
    ofOffset cs m ≤ ofOffset cs n ↔ m ≤ n :=
  ⟨fun h => Nat.not_lt.1 fun hlt => not_le_of_lt (ofOffset_lt hcs hn hm hlt) h,
    ofOffset_le hcs hm hn⟩

theorem ofOffset_inj (hcs : size cs < 2 ^ 32) (hm : Boundary cs m) (hn : Boundary cs n) :
    ofOffset cs m = ofOffset cs n ↔ m = n := by
  refine ⟨fun h => Nat.le_antisymm ?_ ?_, fun h => by rw [h]⟩
  · rw [← ofOffset_le_iff hcs hm hn, h]
    exact le_refl _
  · rw [← ofOffset_le_iff hcs hn hm, h]
    exact le_refl _

end Relabel.Position

namespace Relabel.Mappings
open Text Position
variable {a b c t : List Char}

theorem add_sub_add (x y z : UInt32) : x + y - x + z = z + y := by
  rw [UInt32.add_comm x y, UInt32.add_sub_cancel, UInt32.add_comm]

/-- What stands behind a replaced text is written on behind the text put in its place. -/
theorem shift?_ofText (h : size (a ++ b ++ c) < 2 ^ 32) (hbc : b ++ c ≠ []) :
    shift? (ofText a) (ofText (a ++ b)) ((ofText a).advance t) (ofText (a ++ b ++ c)) =
      some (ofText (a ++ t ++ c)) := by
  have hab : size (a ++ b) < 2 ^ 32 := by
    rw [size_append] at h
    omega
  have hstart : ¬ ofText (a ++ b ++ c) ≤ ofText a := by
    rw [List.append_assoc] at h ⊢
    exact not_le_of_lt (ofText_lt h hbc)
  have hstop : ¬ ofText (a ++ b ++ c) < ofText (a ++ b) := by
    by_cases hc : c = []
    · rw [hc, List.append_nil]
      exact not_lt_of_le (le_refl _)
    · exact not_lt_of_le (le_of_lt (ofText_lt h hc))
  rw [shift?, if_neg hstart, if_neg hstop, ofText_append (a ++ t) c, ofText_append a t,
    ofText_append (a ++ b) c]
  by_cases hn : '\n' ∈ c
  · -- the position is on a line of its own, counted from the line where the range stopped
    have hc : breaks c < 2 ^ 32 := by
      have := breaks_le c
      rw [size_append] at h
      omega
    have hline : (ofText (a ++ b)).line + UInt32.ofNat (breaks c) ≠ (ofText (a ++ b)).line := by
      intro hz
      have := congrArg UInt32.toNat (UInt32.add_eq_left.1 hz)
      rw [UInt32.toNat_ofNat_of_lt' hc] at this
      exact breaks_eq_zero.1 this hn
    rw [advance_of_mem _ hn, advance_of_mem _ hn, if_neg hline, add_sub_add]
  · rw [advance_of_not_mem _ hn, advance_of_not_mem _ hn, if_pos rfl, add_sub_add]

end Relabel.Mappings
