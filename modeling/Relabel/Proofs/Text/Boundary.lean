import Mathlib.Tactic
import Relabel.Text.Span

/-!
# Boundaries between characters

`Text.Boundary cs n`: the byte offset `n` lies between two characters of `cs` or at one of its ends.
At a boundary `split?`, `before` and `after` all cut the text at the same place, and cutting again
inside one of the two parts cuts the whole text.
-/

namespace Relabel.Text
variable {cs a b c : List Char} {m n : Nat}

/-- The byte offset `n` does not lie inside a character of `cs`, nor past its end. -/
def Boundary (cs : List Char) (n : Nat) : Prop :=
  ∃ a b, cs = a ++ b ∧ size a = n

theorem utf8Size_pos (c : Char) : 0 < c.utf8Size := Char.utf8Size_pos c

theorem size_replicate (n : Nat) (c : Char) : size (List.replicate n c) = n * c.utf8Size := by
  induction n with
  | zero => simp
  | succ n ih => rw [List.replicate_succ, size_cons, ih, Nat.succ_mul, Nat.add_comm]

theorem size_eq_zero : size cs = 0 ↔ cs = [] := by
  cases cs with
  | nil => simp
  | cons c cs =>
    have := utf8Size_pos c
    simp only [size_cons, reduceCtorEq, iff_false]
    omega

theorem split?_append (a b : List Char) : split? (size a) (a ++ b) = some (a, b) := by
  induction a with
  | nil => cases b <;> simp [split?]
  | cons c a ih =>
    obtain ⟨k, hk⟩ := Nat.exists_eq_add_of_lt (utf8Size_pos c)
    rw [size_cons, List.cons_append, hk]
    rw [show 0 + k + 1 + size a = (k + size a) + 1 by omega, split?, hk]
    rw [if_pos (by omega), show k + size a + 1 - (0 + k + 1) = size a by omega, ih]
    rfl

theorem split?_eq_some_iff : split? n cs = some (a, b) ↔ cs = a ++ b ∧ size a = n := by
  refine ⟨fun h => ?_, fun ⟨h, hn⟩ => by rw [h, ← hn]; exact split?_append a b⟩
  fun_induction split? n cs generalizing a with
  | case1 cs => obtain ⟨rfl, rfl⟩ := Prod.mk.inj (Option.some.inj h); exact ⟨rfl, rfl⟩
  | case2 n => exact absurd h (by simp)
  | case3 n c cs hc ih =>
    obtain ⟨⟨x, y⟩, hx, hxy⟩ := Option.map_eq_some_iff.1 h
    obtain ⟨rfl, rfl⟩ := Prod.mk.inj hxy
    obtain ⟨rfl, hs⟩ := ih hx
    exact ⟨rfl, by rw [size_cons, hs]; omega⟩
  | case4 n c cs hc => exact absurd h (by simp)

theorem isBoundary_iff : isBoundary cs n = true ↔ Boundary cs n := by
  rw [isBoundary, Option.isSome_iff_exists]
  constructor
  · rintro ⟨⟨a, b⟩, h⟩
    exact ⟨a, b, split?_eq_some_iff.1 h⟩
  · rintro ⟨a, b, h⟩
    exact ⟨(a, b), split?_eq_some_iff.2 h⟩

instance (cs : List Char) (n : Nat) : Decidable (Boundary cs n) :=
  decidable_of_iff (isBoundary cs n = true) isBoundary_iff

theorem before_append (a b : List Char) : before (size a) (a ++ b) = a := by
  induction a with
  | nil => cases b <;> rfl
  | cons c a ih =>
    obtain ⟨k, hk⟩ := Nat.exists_eq_add_of_lt (utf8Size_pos c)
    rw [size_cons, List.cons_append, show c.utf8Size + size a = (k + size a) + 1 by omega, before,
      show k + size a + 1 - c.utf8Size = size a by omega, ih]

theorem after_append (a b : List Char) : after (size a) (a ++ b) = b := by
  have h := before_append_after (size a) (a ++ b)
  rw [before_append] at h
  exact List.append_cancel_left h

@[simp] theorem before_zero : before 0 cs = [] := by cases cs <;> rfl

@[simp] theorem after_zero : after 0 cs = cs := by cases cs <;> rfl

namespace Boundary

theorem zero (cs : List Char) : Boundary cs 0 := ⟨[], cs, rfl, rfl⟩

theorem size (cs : List Char) : Boundary cs (size cs) := ⟨cs, [], by simp, rfl⟩

theorem le (h : Boundary cs n) : n ≤ Text.size cs := by
  obtain ⟨a, b, rfl, rfl⟩ := h
  simp

theorem append_right (h : Boundary a n) (b : List Char) : Boundary (a ++ b) n := by
  obtain ⟨x, y, rfl, rfl⟩ := h
  exact ⟨x, y ++ b, by simp, rfl⟩

theorem append_left (a : List Char) (h : Boundary b n) : Boundary (a ++ b) (Text.size a + n) := by
  obtain ⟨x, y, rfl, rfl⟩ := h
  exact ⟨a ++ x, y, by simp, by simp⟩

/-- Of two boundaries the first cuts the part before the second. -/
theorem exists_append₃ (hm : Boundary cs m) (hn : Boundary cs n) (hmn : m ≤ n) :
    ∃ a b c, cs = a ++ b ++ c ∧ Text.size a = m ∧ Text.size a + Text.size b = n := by
  obtain ⟨a, u, rfl, rfl⟩ := hm
  obtain ⟨v, c, h, rfl⟩ := hn
  rcases List.append_eq_append_iff.1 h with ⟨b, rfl, rfl⟩ | ⟨b, rfl, rfl⟩
  · exact ⟨a, b, c, by simp, rfl, by simp⟩
  · have hb : Text.size b = 0 := by simp only [size_append] at hmn; omega
    obtain rfl := size_eq_zero.1 hb
    exact ⟨v, [], u, by simp, by simp, by simp⟩

theorem size_before (h : Boundary cs n) : Text.size (before n cs) = n := by
  obtain ⟨a, b, rfl, rfl⟩ := h
  rw [before_append]

theorem of_append (h : Boundary (a ++ b) n) (hn : n ≤ Text.size a) : Boundary a n := by
  obtain ⟨x, y, z, he, rfl, hs⟩ := exists_append₃ h ((size a).append_right b) hn
  rw [List.append_assoc] at he
  have := congrArg (before (Text.size a)) he
  rw [before_append, ← hs, ← size_append, ← List.append_assoc, before_append] at this
  exact ⟨x, y, this, rfl⟩

theorem of_before (hn : Boundary cs n) (hm : Boundary cs m) (h : m ≤ n) : Boundary (before n cs) m := by
  have := before_append_after n cs
  rw [← this] at hm
  exact hm.of_append (by rw [hn.size_before]; exact h)

end Boundary

theorem before_append_of_boundary (h : Boundary a n) (b : List Char) :
    before n (a ++ b) = before n a := by
  obtain ⟨x, y, rfl, rfl⟩ := h
  rw [List.append_assoc, before_append, before_append]

theorem after_append_of_boundary (h : Boundary a n) (b : List Char) :
    after n (a ++ b) = after n a ++ b := by
  obtain ⟨x, y, rfl, rfl⟩ := h
  rw [List.append_assoc, after_append, after_append]

theorem before_before (hm : Boundary cs m) (hn : Boundary cs n) (h : m ≤ n) :
    before m (before n cs) = before m cs := by
  obtain ⟨a, b, c, rfl, rfl, rfl⟩ := hm.exists_append₃ hn h
  rw [← size_append, before_append, before_append, List.append_assoc, before_append]

/-- The part of a text from one byte offset to another. -/
def between (m n : Nat) (cs : List Char) : List Char :=
  before (n - m) (after m cs)

theorem between_append₃ (a b c : List Char) :
    between (size a) (size a + size b) (a ++ b ++ c) = b := by
  rw [between, List.append_assoc, after_append, Nat.add_sub_cancel_left, before_append]

@[simp] theorem between_self : between n n cs = [] := by
  rw [between, Nat.sub_self, before_zero]

theorem after_before (hm : Boundary cs m) (hn : Boundary cs n) (h : m ≤ n) :
    after m (before n cs) = between m n cs := by
  obtain ⟨a, b, c, rfl, rfl, rfl⟩ := hm.exists_append₃ hn h
  rw [between_append₃, ← size_append, before_append, after_append]

theorem before_append_between (hm : Boundary cs m) (hn : Boundary cs n) (h : m ≤ n) :
    before m cs ++ between m n cs = before n cs := by
  obtain ⟨a, b, c, rfl, rfl, rfl⟩ := hm.exists_append₃ hn h
  rw [between_append₃, ← size_append, before_append, List.append_assoc, before_append]

theorem between_append_after (hm : Boundary cs m) (hn : Boundary cs n) (h : m ≤ n) :
    between m n cs ++ after n cs = after m cs := by
  obtain ⟨a, b, c, rfl, rfl, rfl⟩ := hm.exists_append₃ hn h
  rw [between_append₃, ← size_append, after_append, List.append_assoc, after_append]

theorem between_append_between {k : Nat} (hk : Boundary cs k) (hm : Boundary cs m)
    (hn : Boundary cs n) (hkm : k ≤ m) (hmn : m ≤ n) :
    between k m cs ++ between m n cs = between k n cs := by
  have h : before k cs ++ (between k m cs ++ between m n cs) = before k cs ++ between k n cs := by
    rw [← List.append_assoc, before_append_between hk hm hkm, before_append_between hm hn hmn,
      before_append_between hk hn (by omega)]
  exact List.append_cancel_left h

theorem size_between (hm : Boundary cs m) (hn : Boundary cs n) (h : m ≤ n) :
    size (between m n cs) = n - m := by
  obtain ⟨a, b, c, rfl, rfl, rfl⟩ := hm.exists_append₃ hn h
  rw [between_append₃, Nat.add_sub_cancel_left]

/-- A span slices a text where its two ends are boundaries in their order. -/
theorem slice?_eq_some_iff {s : Span} :
    slice? cs s = some b ↔
      ∃ a c, cs = a ++ b ++ c ∧ size a = s.start ∧ size a + size b = s.stop := by
  constructor
  · intro h
    have hle : s.start ≤ s.stop := by
      by_contra hle
      simp only [slice?, guard, if_neg hle] at h
      exact nomatch h
    simp only [slice?, guard, if_pos hle, Option.pure_def, Option.bind_eq_bind, Option.bind_some,
      Option.bind_eq_some_iff, Option.some.injEq, Prod.exists] at h
    obtain ⟨a, r, hr, b', c, hc, rfl⟩ := h
    obtain ⟨rfl, ha⟩ := split?_eq_some_iff.1 hr
    obtain ⟨rfl, hb⟩ := split?_eq_some_iff.1 hc
    exact ⟨a, c, by simp, ha, by omega⟩
  · rintro ⟨a, c, rfl, ha, hb⟩
    have hr : split? s.start (a ++ b ++ c) = some (a, b ++ c) :=
      split?_eq_some_iff.2 ⟨by simp, ha⟩
    have hc : split? (s.stop - s.start) (b ++ c) = some (b, c) :=
      split?_eq_some_iff.2 ⟨rfl, by omega⟩
    have hle : s.start ≤ s.stop := by omega
    simp only [slice?, guard, if_pos hle, hr, hc, Option.pure_def, Option.bind_eq_bind,
      Option.bind_some]

end Relabel.Text
