import Relabel.Proofs.Text.Boundary
import Relabel.Text.Trim

/-!
# What trimming leaves

A text is what trimming leaves of it, between blanks (`exists_trim_append`). What is left neither starts nor
ends with a blank (`isTrim_trim`), and of what is no blank nothing is lost (`trim_keeps`).
-/

namespace Relabel.Text
variable {cs : List Char}

theorem isBlank_of_mem_takeWhile {c : Char} (h : c ∈ cs.takeWhile isBlank) : isBlank c = true :=
  List.all_eq_true.1 List.all_takeWhile c h

theorem exists_trimEnd_append (cs : List Char) :
    ∃ b, cs = trimEnd cs ++ b ∧ ∀ c ∈ b, isBlank c = true := by
  refine ⟨(cs.reverse.takeWhile isBlank).reverse, ?_, fun c hc => ?_⟩
  · rw [trimEnd, ← List.reverse_append, List.takeWhile_append_dropWhile, List.reverse_reverse]
  · exact isBlank_of_mem_takeWhile (List.mem_reverse.1 hc)

theorem takeWhile_append_trimStart (cs : List Char) : cs.takeWhile isBlank ++ trimStart cs = cs :=
  List.takeWhile_append_dropWhile

/-- A text is what trimming leaves of it, between blanks. -/
theorem exists_trim_append (cs : List Char) :
    ∃ b, cs = cs.takeWhile isBlank ++ trim cs ++ b ∧ ∀ c ∈ b, isBlank c = true := by
  obtain ⟨b, hb, hblanks⟩ := exists_trimEnd_append (trimStart cs)
  refine ⟨b, ?_, hblanks⟩
  rw [List.append_assoc, trim, ← hb, takeWhile_append_trimStart]

/-- A text that neither starts nor ends with a blank. -/
structure IsTrim (cs : List Char) : Prop where
  head : ∀ c ∈ cs.head?, isBlank c = false
  last : ∀ c ∈ cs.getLast?, isBlank c = false

namespace IsTrim

theorem trim_eq (h : IsTrim cs) : trim cs = cs := by
  have hstart : trimStart cs = cs := by
    cases cs with
    | nil => rfl
    | cons c cs => exact List.dropWhile_cons_of_neg (Bool.eq_false_iff.1 (h.head c rfl))
  have hend : cs.reverse.dropWhile isBlank = cs.reverse := by
    have hlast := h.last
    rw [← List.head?_reverse] at hlast
    cases hcs : cs.reverse with
    | nil => rfl
    | cons c ds =>
      rw [hcs] at hlast
      exact List.dropWhile_cons_of_neg (Bool.eq_false_iff.1 (hlast c rfl))
  rw [trim, hstart, trimEnd, hend, List.reverse_reverse]

theorem lead_eq (h : IsTrim cs) : lead cs = 0 := by
  cases cs with
  | nil => rfl
  | cons c cs => rw [lead, List.takeWhile_cons_of_neg (Bool.eq_false_iff.1 (h.head c rfl)), size_nil]

end IsTrim

theorem isBlank_of_mem_head?_dropWhile {c : Char} (h : c ∈ (cs.dropWhile isBlank).head?) : isBlank c = false := by
  have hhead := List.head?_dropWhile_not isBlank cs
  rw [Option.mem_def.1 h] at hhead
  simpa using hhead

theorem isTrim_trim (cs : List Char) : IsTrim (trim cs) := by
  constructor
  · intro c hc
    obtain ⟨b, hb, -⟩ := exists_trimEnd_append (trimStart cs)
    have hhead : c ∈ (trimStart cs).head? := by
      rw [trim, Option.mem_def] at hc
      rw [hb, List.head?_append, hc]
      rfl
    exact isBlank_of_mem_head?_dropWhile hhead
  · intro c hc
    rw [trim, trimEnd, List.getLast?_reverse] at hc
    exact isBlank_of_mem_head?_dropWhile hc

/-- The blanks at the start of a text stop at the first character that is none. -/
theorem lead_append_le {u v : List Char} {c : Char} (hc : isBlank c = false) : lead (u ++ c :: v) ≤ size u := by
  induction u with
  | nil => rw [List.nil_append, lead, List.takeWhile_cons_of_neg (Bool.eq_false_iff.1 hc), size_nil]
  | cons x u ih =>
    rw [List.cons_append]
    unfold lead at ih ⊢
    rw [List.takeWhile_cons]
    split
    · rw [size_cons, size_cons]
      exact Nat.add_le_add_left ih _
    · exact Nat.zero_le _

/-- A character that is no blank stays when its text is trimmed. -/
theorem trim_keeps {u v : List Char} {c : Char} (hc : isBlank c = false) :
    lead (u ++ c :: v) ≤ size u ∧ size (u ++ [c]) ≤ lead (u ++ c :: v) + size (trim (u ++ c :: v)) := by
  refine ⟨lead_append_le hc, ?_⟩
  obtain ⟨b, hb, hblanks⟩ := exists_trim_append (u ++ c :: v)
  rw [List.append_cons u c v] at hb
  have hsize : size ((u ++ [c] ++ v).takeWhile isBlank ++ trim (u ++ [c] ++ v)) =
      lead (u ++ c :: v) + size (trim (u ++ c :: v)) := by
    rw [size_append, ← List.append_cons]
    rfl
  rw [← hsize]
  rcases List.append_eq_append_iff.1 hb with ⟨w, hw, -⟩ | ⟨w, hw, rfl⟩
  · rw [hw, size_append (u ++ [c])]
    exact Nat.le_add_right ..
  · -- what trimming takes off the end cannot reach the character
    rcases List.eq_nil_or_concat w with rfl | ⟨w, d, rfl⟩
    · rw [List.append_nil] at hw
      exact Nat.le_of_eq (congrArg size hw)
    · rw [List.concat_eq_append, ← List.append_assoc] at hw
      obtain ⟨-, hd⟩ := List.append_inj' hw rfl
      obtain rfl := (List.cons.inj hd).1
      have := hblanks c (by simp)
      rw [hc] at this
      cases this

end Relabel.Text
