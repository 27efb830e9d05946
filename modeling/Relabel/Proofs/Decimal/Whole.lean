import Mathlib.Tactic
import Relabel.Decimal.Double

/-!
# Whole numbers as doubles

A whole number below `2 ^ 53` is a double, and reading it back gives the number: `toNat?_ofNat`.
-/

namespace Relabel.Decimal
variable {n k : Nat}

theorem scale2_neg (n : Nat) (h : 0 < k) : scale2 n 1 (-(k : Int)) = (n, 2 ^ k) := by
  have hneg : ¬ (0 : Int) ≤ -(k : Int) := by omega
  rw [scale2, if_neg hneg, neg_neg, Int.toNat_natCast, Nat.one_shiftLeft]

theorem scale2_nat (n k : Nat) : scale2 n 1 (k : Int) = (n * 2 ^ k, 1) := by
  rw [scale2, if_pos (Int.natCast_nonneg k), Int.toNat_natCast, Nat.shiftLeft_eq]

theorem scale2_zero (n : Nat) : scale2 n 1 0 = (n, 1) := by
  rw [← Nat.cast_zero, scale2_nat, pow_zero, Nat.mul_one]

theorem binaryOrder_one (hn : n ≠ 0) : binaryOrder n 1 = n.log2 := by
  have hlog : ((n.log2 : Int) - ((1 : Nat).log2 : Int)) = n.log2 := by
    rw [show (1 : Nat).log2 = 0 by decide, Nat.cast_zero, sub_zero]
  have hscale : (scale2 n 1 (-(n.log2 : Int))).2 ≤ (scale2 n 1 (-(n.log2 : Int))).1 := by
    rcases Nat.eq_zero_or_pos n.log2 with h0 | hpos
    · rw [h0, Nat.cast_zero, neg_zero, scale2_zero]
      exact Nat.pos_of_ne_zero hn
    · rw [scale2_neg n hpos]
      exact Nat.log2_self_le hn
  rw [binaryOrder, hlog]
  exact if_pos hscale

theorem roundHalfEven_one (n : Nat) : roundHalfEven n 1 = n := by
  simp [roundHalfEven, Nat.mod_one]

namespace Double

theorem ofNat_eq (hn : n ≠ 0) (h : n < 2 ^ 53) :
    ofNat n = .finite (n * 2 ^ (52 - n.log2)) (-((52 - n.log2 : Nat) : Int)) := by
  have hlog : n.log2 < 53 := (Nat.log2_lt hn).2 h
  have hexponent : max ((n.log2 : Int) - 52) (-1074) = -((52 - n.log2 : Nat) : Int) := by omega
  have hmantissa : n * 2 ^ (52 - n.log2) < 2 * leastMantissa := by
    calc n * 2 ^ (52 - n.log2) < 2 ^ (n.log2 + 1) * 2 ^ (52 - n.log2) :=
          Nat.mul_lt_mul_of_pos_right Nat.lt_log2_self (Nat.two_pow_pos _)
      _ = 2 ^ 53 := by rw [← pow_add]; congr 1; omega
      _ = 2 * leastMantissa := by decide
  have hle : -((52 - n.log2 : Nat) : Int) ≤ 971 := by omega
  rw [ofNat, ofRatio, if_neg hn]
  simp only [binaryOrder_one hn, hexponent, neg_neg, scale2_nat, roundHalfEven_one, if_pos hmantissa,
    if_pos hle]

theorem toNat?_ofNat (h : n < 2 ^ 53) : (ofNat n).toNat? = some n := by
  rcases Nat.eq_zero_or_pos n with rfl | hpos
  · decide
  · rw [ofNat_eq (Nat.ne_of_gt hpos) h, toNat?]
    rcases Nat.eq_zero_or_pos (52 - n.log2) with h0 | hk
    · rw [h0, Nat.cast_zero, neg_zero, scale2_zero]
      simp [Nat.mod_one]
    · rw [scale2_neg _ hk]
      simp [Nat.mul_mod_left, Nat.mul_div_cancel _ (Nat.two_pow_pos _)]

end Double

end Relabel.Decimal
