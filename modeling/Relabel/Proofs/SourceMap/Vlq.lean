import Mathlib.Tactic
import Relabel.SourceMap.Vlq

/-!
# Reading back variable-length quantities

Digits carry five bits each and the least comes first, so while the digits of `n` are read from the
bit `shift` on, the word read so far and `n · 2 ^ shift` together stay the same. Below `2 ^ 63` no
bit leaves the word (`decodeFrom_digits`), and an integer below `2 ^ 62` is read back from its
digits whatever follows them (`decode_encode_append`). No text is read to an integer beyond `2 ^ 62`,
because the sign takes a bit of the word (`bounds_of_decodeFrom`).
-/

namespace Relabel.Vlq
variable {n word shift digit : Nat} {c : Char} {cs : List Char} {v : Int} {values : List Int}

theorem valueOf?_charOf (h : n < 64) : valueOf? (charOf n) = some n := by
  have all : ∀ n : Fin 64, valueOf? (charOf n) = some n.val := by decide +kernel
  exact all ⟨n, h⟩

theorem charOf_ne (h : n < 64) : charOf n ≠ ',' ∧ charOf n ≠ ';' := by
  have all : ∀ n : Fin 64, charOf n ≠ ',' ∧ charOf n ≠ ';' := by decide +kernel
  exact all ⟨n, h⟩

theorem digits_of_lt (h : n < 32) : digits n = [charOf n] := by
  rw [digits, if_pos h]

theorem digits_of_le (h : 32 ≤ n) : digits n = charOf (n % 32 + 32) :: digits (n / 32) := by
  rw [digits, if_neg (by omega)]

theorem digits_ne_nil (n : Nat) : digits n ≠ [] := by
  rcases Nat.lt_or_ge n 32 with h | h
  · simp [digits_of_lt h]
  · simp [digits_of_le h]

theorem encode_ne_nil (v : Int) : encode v ≠ [] := digits_ne_nil _

/-- A digit is none of the characters that separate segments and lines. -/
theorem digits_separators (n : Nat) : ∀ c ∈ digits n, c ≠ ',' ∧ c ≠ ';' := by
  induction n using Nat.strongRecOn with
  | ind n ih =>
    intro c hc
    rcases Nat.lt_or_ge n 32 with h | h
    · rw [digits_of_lt h, List.mem_singleton] at hc
      exact hc ▸ charOf_ne (by omega)
    · rw [digits_of_le h, List.mem_cons] at hc
      rcases hc with rfl | hc
      · exact charOf_ne (by omega)
      · exact ih (n / 32) (by omega) c hc

theorem encode_separators (v : Int) : ∀ c ∈ encode v, c ≠ ',' ∧ c ≠ ';' := digits_separators _

/-! ### Words -/

theorem bmod_of_bounds (h : -2 ^ 63 ≤ v ∧ v < 2 ^ 63) : v.bmod UInt64.size = v := by
  unfold UInt64.size
  exact Int.bmod_eq_of_le (by omega) (by omega)

theorem signed_of_lt (h : n < 2 ^ 63) : signed n = n := bmod_of_bounds (by omega)

theorem signed_bounds (n : Nat) : -2 ^ 63 ≤ signed n ∧ signed n < 2 ^ 63 :=
  ⟨Int.le_bmod (by decide), Int.bmod_lt (by decide)⟩

/-- The sign takes one bit of the word. -/
theorem ofWord_bounds (n : Nat) : -2 ^ 62 ≤ ofWord n ∧ ofWord n ≤ 2 ^ 62 := by
  have h := signed_bounds n
  simp only [ofWord]
  split <;> omega

/-! ### Reading -/

/-- One step of reading. -/
theorem decodeFrom_of_value (hc : valueOf? c = some digit) (cs : List Char) :
    decodeFrom word shift (c :: cs) =
      if 32 ≤ digit then
        if 60 < shift + 5 then .error .overflow
        else decodeFrom ((word + (digit % 32) <<< shift) % UInt64.size) (shift + 5) cs
      else do
        let rest ← decodeFrom 0 0 cs
        return ofWord ((word + (digit % 32) <<< shift) % UInt64.size) :: rest := by
  rw [decodeFrom, hc]

/-- A digit that is read is followed by more of its integer, or it ends an integer. -/
theorem exists_of_decodeFrom_cons (h : decodeFrom word shift (c :: cs) = .ok values) :
    (∃ more, decodeFrom more (shift + 5) cs = .ok values) ∨
      ∃ last rest, decodeFrom 0 0 cs = .ok rest ∧ values = ofWord last :: rest := by
  cases hc : valueOf? c with
  | none =>
    rw [decodeFrom, hc] at h
    cases h
  | some digit =>
    rw [decodeFrom_of_value hc] at h
    split at h
    · split at h
      · cases h
      · exact .inl ⟨_, h⟩
    · cases hrest : decodeFrom 0 0 cs with
      | error e =>
        rw [hrest] at h
        cases h
      | ok rest =>
        rw [hrest] at h
        exact .inr ⟨_, rest, rfl, (Except.ok.inj h).symm⟩

theorem bounds_of_decodeFrom (h : decodeFrom word shift cs = .ok values) :
    ∀ v ∈ values, -2 ^ 62 ≤ v ∧ v ≤ 2 ^ 62 := by
  induction cs generalizing word shift values with
  | nil =>
    rw [decodeFrom] at h
    split at h
    · cases h
      simp
    · cases h
  | cons c cs ih =>
    rcases exists_of_decodeFrom_cons h with ⟨more, h⟩ | ⟨last, rest, hrest, rfl⟩
    · exact ih h
    · exact List.forall_mem_cons.2 ⟨ofWord_bounds last, ih hrest⟩

/-- Only where there is nothing to read no integer is read. -/
theorem eq_nil_of_decodeFrom (h : decodeFrom word shift cs = .ok []) : cs = [] ∧ shift = 0 := by
  induction cs generalizing word shift with
  | nil =>
    rw [decodeFrom] at h
    split at h
    · next hshift => exact ⟨rfl, hshift⟩
    · cases h
  | cons c cs ih =>
    rcases exists_of_decodeFrom_cons h with ⟨more, h⟩ | ⟨last, rest, -, h⟩
    -- the shift says that a digit is missing
    · exact absurd (ih h).2 (by omega)
    · cases h

/-- One step of reading, where the digit and the word stay in range. -/
theorem decodeFrom_charOf (hd : digit < 64) (hw : word + (digit % 32) * 2 ^ shift < 2 ^ 64) :
    decodeFrom word shift (charOf digit :: cs) =
      if 32 ≤ digit then
        if 60 < shift + 5 then .error .overflow
        else decodeFrom (word + (digit % 32) * 2 ^ shift) (shift + 5) cs
      else do
        let rest ← decodeFrom 0 0 cs
        return ofWord (word + (digit % 32) * 2 ^ shift) :: rest := by
  have hmod : (word + (digit % 32) <<< shift) % UInt64.size = word + (digit % 32) * 2 ^ shift := by
    rw [Nat.shiftLeft_eq]
    exact Nat.mod_eq_of_lt hw
  rw [decodeFrom_of_value (valueOf?_charOf hd), hmod]

/-- The digits of `n` add `n` from the bit `shift` on. -/
theorem decodeFrom_digits (hshift : shift % 5 = 0) (hw : word + n * 2 ^ shift < 2 ^ 63) :
    decodeFrom word shift (digits n ++ cs) = do
      let rest ← decodeFrom 0 0 cs
      return ofWord (word + n * 2 ^ shift) :: rest := by
  induction n using Nat.strongRecOn generalizing word shift with
  | ind n ih =>
    rcases Nat.lt_or_ge n 32 with h | h
    · rw [digits_of_lt h, List.singleton_append, decodeFrom_charOf (by omega), if_neg (by omega),
        Nat.mod_eq_of_lt h]
      rw [Nat.mod_eq_of_lt h]
      omega
    · have hpow : 2 ^ (shift + 5) = 32 * 2 ^ shift := by rw [Nat.pow_add, Nat.mul_comm]
      have hsplit : n % 32 * 2 ^ shift + n / 32 * 2 ^ (shift + 5) = n * 2 ^ shift := by
        rw [hpow, ← Nat.mul_assoc, ← Nat.add_mul, Nat.mod_add_div' n 32]
      -- a digit that follows still fits: there are less than 63 bits
      have hlt : shift + 5 < 63 := by
        have hdiv : 2 ^ (shift + 5) ≤ n / 32 * 2 ^ (shift + 5) :=
          Nat.le_mul_of_pos_left _ (by omega)
        exact (Nat.pow_lt_pow_iff_right (by omega : 1 < 2)).1 (by omega)
      have hmod : (n % 32 + 32) % 32 = n % 32 := by omega
      rw [digits_of_le h, List.cons_append, decodeFrom_charOf (by omega) (by rw [hmod]; omega),
        if_pos (by omega), if_neg (by omega), hmod,
        ih (n / 32) (by omega) (by omega) (by omega), Nat.add_assoc, hsplit]

theorem signFirst_lt (h : v.natAbs < 2 ^ 62) : signFirst v < 2 ^ 63 := by
  unfold signFirst
  split <;> omega

theorem ofWord_signFirst (h : v.natAbs < 2 ^ 62) : ofWord (signFirst v) = v := by
  have hlt := signFirst_lt h
  simp only [ofWord, signed_of_lt hlt]
  unfold signFirst
  split
  · rw [if_pos (by omega)]
    omega
  · rw [if_neg (by omega)]
    omega

/-- An integer is read back from its digits, and reading goes on behind them. -/
theorem decode_encode_append (h : v.natAbs < 2 ^ 62) (cs : List Char) :
    decode (encode v ++ cs) = do
      let rest ← decode cs
      return v :: rest := by
  have hlt : 0 + signFirst v * 2 ^ 0 < 2 ^ 63 := by
    have := signFirst_lt h
    omega
  have hread := @decodeFrom_digits (signFirst v) 0 0 cs rfl hlt
  rw [Nat.zero_add, Nat.pow_zero, Nat.mul_one, ofWord_signFirst h] at hread
  exact hread

/-- A list of integers is read back from their digits in a row. -/
theorem decode_flatMap_encode {vs : List Int} (h : ∀ v ∈ vs, v.natAbs < 2 ^ 62) :
    decode (vs.flatMap encode) = .ok vs := by
  induction vs with
  | nil => rfl
  | cons v vs ih =>
    rw [List.flatMap_cons, decode_encode_append (h v (List.mem_cons_self ..)),
      ih fun x hx => h x (List.mem_cons_of_mem v hx)]
    rfl

end Relabel.Vlq
