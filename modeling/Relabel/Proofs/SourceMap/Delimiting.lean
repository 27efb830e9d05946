import Relabel.Proofs.SourceMap.Vlq

/-!
# Encodings delimit themselves

Every digit of an integer but the last says that another one follows, so no encoding is the beginning of
another one (`encode_append_inj`). Integers in a row need nothing between them: below `2 ^ 62` they have at
most thirteen digits each, they are read back one by one, and no other integers are written in the same
way (`delimited_of_flatMap_encode`).
-/

namespace Relabel.Vlq
variable {m n k : Nat} {v w : Int} {vs ws : List Int} {s t : List Char}

theorem charOf_inj (hm : m < 64) (hn : n < 64) : charOf m = charOf n ↔ m = n := by
  refine ⟨fun h => ?_, congrArg charOf⟩
  have hvalue := congrArg valueOf? h
  rw [valueOf?_charOf hm, valueOf?_charOf hn] at hvalue
  exact Option.some.inj hvalue

/-- The digits of a number end where they say so. -/
theorem digits_append_inj : digits m ++ s = digits n ++ t ↔ m = n ∧ s = t := by
  refine ⟨fun h => ?_, fun ⟨hmn, hst⟩ => by rw [hmn, hst]⟩
  induction m using Nat.strongRecOn generalizing n with
  | ind m ih =>
    rcases Nat.lt_or_ge m 32 with hm | hm <;> rcases Nat.lt_or_ge n 32 with hn | hn
    · rw [digits_of_lt hm, digits_of_lt hn] at h
      obtain ⟨hchar, hrest⟩ := List.cons.inj h
      exact ⟨(charOf_inj (by omega) (by omega)).1 hchar, hrest⟩
    · -- one says that it is the last, the other that it is not
      rw [digits_of_lt hm, digits_of_le hn] at h
      have hdigit := (charOf_inj (by omega) (by omega)).1 (List.cons.inj h).1
      omega
    · rw [digits_of_le hm, digits_of_lt hn] at h
      have hdigit := (charOf_inj (by omega) (by omega)).1 (List.cons.inj h).1
      omega
    · rw [digits_of_le hm, digits_of_le hn] at h
      obtain ⟨hchar, hrest⟩ := List.cons.inj h
      have hdigit := (charOf_inj (by omega) (by omega)).1 hchar
      obtain ⟨hdiv, hst⟩ := ih (m / 32) (by omega) hrest
      exact ⟨by omega, hst⟩

theorem length_digits_le (h : n < 32 ^ (k + 1)) : (digits n).length ≤ k + 1 := by
  induction k generalizing n with
  | zero =>
    rw [digits_of_lt (by omega)]
    exact Nat.le_refl 1
  | succ k ih =>
    rcases Nat.lt_or_ge n 32 with hn | hn
    · rw [digits_of_lt hn, List.length_singleton]
      omega
    · rw [digits_of_le hn, List.length_cons]
      exact Nat.succ_le_succ (ih (Nat.div_lt_of_lt_mul (by rwa [Nat.mul_comm, ← Nat.pow_succ])))

theorem signFirst_inj : signFirst v = signFirst w ↔ v = w := by
  refine ⟨fun h => ?_, congrArg signFirst⟩
  unfold signFirst at h
  split at h <;> split at h <;> omega

/-- No encoding is the beginning of another one. -/
theorem encode_append_inj : encode v ++ s = encode w ++ t ↔ v = w ∧ s = t := by
  rw [encode, encode, digits_append_inj, signFirst_inj]

theorem length_encode_le (h : v.natAbs < 2 ^ 62) : (encode v).length ≤ 13 :=
  length_digits_le (k := 12) (Nat.lt_trans (signFirst_lt h) (by decide))

/-- Integers in a row are written in one way. -/
theorem flatMap_encode_inj : vs.flatMap encode = ws.flatMap encode ↔ vs = ws := by
  refine ⟨fun h => ?_, congrArg _⟩
  induction vs generalizing ws with
  | nil =>
    cases ws with
    | nil => rfl
    | cons w ws => exact absurd (List.append_eq_nil_iff.1 h.symm).1 (encode_ne_nil w)
  | cons v vs ih =>
    cases ws with
    | nil => exact absurd (List.append_eq_nil_iff.1 h).1 (encode_ne_nil v)
    | cons w ws =>
      obtain ⟨rfl, hrest⟩ := encode_append_inj.1 h
      rw [ih hrest]

/-- Integers below `2 ^ 62` in a row: what is written of each fits a word and takes at most thirteen
digits, all are read back, each ends where its own digits say so, and no other row is written so. -/
theorem delimited_of_flatMap_encode (h : ∀ v ∈ vs, v.natAbs < 2 ^ 62) :
    decode (vs.flatMap encode) = .ok vs ∧
      (∀ v ∈ vs, signFirst v < 2 ^ 63 ∧ (encode v).length ≤ 13 ∧
        ∀ w s t, encode v ++ s = encode w ++ t → v = w ∧ s = t) ∧
      ∀ ws, vs.flatMap encode = ws.flatMap encode → vs = ws := by
  refine ⟨decode_flatMap_encode h, fun v hv => ⟨?_, ?_, fun w s t hst => ?_⟩, fun ws hws => ?_⟩
  · exact signFirst_lt (h v hv)
  · exact length_encode_le (h v hv)
  · exact encode_append_inj.1 hst
  · exact flatMap_encode_inj.1 hws

/-- The greatest and the least of these integers, with others between them. -/
theorem delimited_of_flatMap_encode_extremes :
    let vs : List Int := [2 ^ 62 - 1, 0, -1, 16, 1 - 2 ^ 62]
    (∀ v ∈ vs, v.natAbs < 2 ^ 62) ∧ decode (vs.flatMap encode) = .ok vs ∧
      ∀ ws, vs.flatMap encode = ws.flatMap encode → vs = ws := by
  intro vs
  have hvs : ∀ v ∈ vs, v.natAbs < 2 ^ 62 := by decide
  obtain ⟨hread, -, hother⟩ := delimited_of_flatMap_encode hvs
  exact ⟨hvs, hread, hother⟩

end Relabel.Vlq
