import Mathlib.Tactic
import Relabel.Text.Classes

/-!
# Characters of one class and of no other

What holds of all characters between two is seen from their codes (`of_codes`). Two sets of intervals are
`apart` if every interval of one ends before or begins behind every interval of the other; then they have no
character in common (`CodeSet.not_contains_of_apart`). What continues an identifier is in one of two sets
(`contains_of_isIdContinue`).
-/

namespace Relabel.Text
variable {a b : CodeSet} {c : Char}

/-- What holds of each code point from one character to another holds of the characters between them. -/
theorem of_codes {P : Char → Prop} {first last : Char}
    (hall : ∀ n < last.toNat + 1, first.toNat ≤ n → P (Char.ofNat n)) (h : first ≤ c ∧ c ≤ last) : P c := by
  simp only [Char.le_def, UInt32.le_iff_toNat_le] at h
  have hc := hall c.toNat (Nat.lt_succ_of_le h.2) h.1
  rwa [Char.ofNat_toNat] at hc

/-- No interval of one set meets an interval of the other. -/
def CodeSet.apart (a b : CodeSet) : Bool :=
  a.all fun x => b.all fun y => x.2 < y.1 || y.2 < x.1

theorem CodeSet.not_contains_of_apart (h : a.apart b = true) (ha : a.contains c = true) :
    b.contains c = false := by
  rw [CodeSet.contains, List.any_eq_true] at ha
  rw [CodeSet.contains, List.any_eq_false]
  obtain ⟨x, hx, hcx⟩ := ha
  intro y hy hcy
  have hxy := List.all_eq_true.1 (List.all_eq_true.1 h x hx) y hy
  simp only [Bool.and_eq_true, Bool.or_eq_true, decide_eq_true_eq] at hcx hcy hxy
  omega

theorem CodeSet.contains_of_mem {lo hi : Nat} (hmem : (lo, hi) ∈ a) (h : lo ≤ c.toNat ∧ c.toNat ≤ hi) :
    a.contains c = true :=
  List.any_eq_true.2 ⟨(lo, hi), hmem, by simpa using h⟩

/-! ### Identifiers -/

theorem letters_contains_of_isIdStart (h : isIdStart c = true) : letters.contains c = true := by
  simp only [isIdStart, isAsciiLetter, Bool.or_eq_true, Bool.and_eq_true, decide_eq_true_eq] at h
  rcases h with (h | h) | ⟨-, h⟩
  · exact CodeSet.contains_of_mem (List.mem_of_getElem? (i := 1) rfl) h
  · exact CodeSet.contains_of_mem (List.mem_cons_self ..) h
  · exact h

theorem contains_of_isIdContinue (h : isIdContinue c = true) :
    letters.contains c = true ∨ marks.contains c = true := by
  simp only [isIdContinue, isAsciiDigit, Bool.or_eq_true, Bool.and_eq_true, decide_eq_true_eq, beq_iff_eq] at h
  rcases h with ((h | h) | rfl) | ⟨-, h⟩
  · exact .inl (letters_contains_of_isIdStart h)
  · exact .inr (CodeSet.contains_of_mem (List.mem_cons_self ..) h)
  · exact .inr (by decide)
  · exact .inr h

end Relabel.Text
