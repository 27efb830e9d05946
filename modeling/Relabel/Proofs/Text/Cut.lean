import Mathlib.Data.List.Infix
import Relabel.Text.Cut

/-!
# First occurrences

`cut?` cuts a text at the first occurrence of a word, and at none only if the word does not occur.
-/

namespace Relabel.Text
variable {word cs rest a b a' b' : List Char}

theorem stripPrefix?_append (word rest : List Char) : stripPrefix? word (word ++ rest) = some rest := by
  induction word with
  | nil => cases rest <;> rfl
  | cons w word ih => rwa [List.cons_append, stripPrefix?, if_pos rfl]

theorem length_le_of_cut? (h : cut? word cs = some (a, b)) (hcs : cs = a' ++ word ++ b') : a.length ≤ a'.length := by
  induction cs generalizing a a' with
  | nil =>
    simp only [cut?] at h
    split at h
    · obtain ⟨rfl, -⟩ := Prod.mk.inj (Option.some.inj h)
      exact Nat.zero_le _
    · cases h
  | cons c cs ih =>
    rw [cut?] at h
    split at h
    · obtain ⟨rfl, -⟩ := Prod.mk.inj (Option.some.inj h)
      exact Nat.zero_le _
    · next hstrip =>
      obtain ⟨⟨x, y⟩, hcut, hxy⟩ := Option.map_eq_some_iff.1 h
      obtain ⟨rfl, rfl⟩ := Prod.mk.inj hxy
      cases a' with
      | nil =>
        rw [hcs, List.nil_append, stripPrefix?_append] at hstrip
        cases hstrip
      | cons d a' =>
        rw [List.cons_append, List.cons_append] at hcs
        exact Nat.succ_le_succ (ih hcut (List.cons.inj hcs).2)

theorem exists_cut? (h : word <:+: cs) : ∃ a b, cut? word cs = some (a, b) := by
  obtain ⟨a, b, rfl⟩ := h
  induction a with
  | nil =>
    have hstrip := stripPrefix?_append word b
    rw [List.nil_append]
    cases hcs : word ++ b with
    | nil =>
      obtain ⟨rfl, rfl⟩ := List.append_eq_nil_iff.1 hcs
      exact ⟨[], [], rfl⟩
    | cons c cs =>
      rw [hcs] at hstrip
      exact ⟨[], b, by rw [cut?, hstrip]⟩
  | cons c a ih =>
    obtain ⟨x, y, hcut⟩ := ih
    rw [List.cons_append, List.cons_append, cut?]
    split
    · exact ⟨_, _, rfl⟩
    · exact ⟨c :: x, y, by rw [hcut]; rfl⟩

/-- A text is cut at the first occurrence of the word. -/
theorem cut?_eq_some_iff : cut? word cs = some (a, b) ↔
    cs = a ++ word ++ b ∧ ∀ a' b', cs = a' ++ word ++ b' → a.length ≤ a'.length := by
  refine ⟨fun h => ⟨eq_append_of_cut? h, fun a' b' => length_le_of_cut? h⟩, ?_⟩
  rintro ⟨h, hfirst⟩
  obtain ⟨x, y, hcut⟩ := exists_cut? ⟨a, b, h.symm⟩
  have happend := eq_append_of_cut? hcut
  have hlength := Nat.le_antisymm (length_le_of_cut? hcut h) (hfirst _ _ happend)
  rw [h, List.append_assoc, List.append_assoc] at happend
  obtain ⟨rfl, htail⟩ := List.append_inj happend hlength.symm
  obtain rfl := List.append_cancel_left htail
  exact hcut

theorem cut?_eq_none_iff : cut? word cs = none ↔ ¬ word <:+: cs := by
  rw [Option.eq_none_iff_forall_not_mem]
  constructor
  · intro h hword
    obtain ⟨a, b, hcut⟩ := exists_cut? hword
    exact h _ hcut
  · rintro h ⟨a, b⟩ hcut
    exact h ⟨a, b, (eq_append_of_cut? hcut).symm⟩

end Relabel.Text
