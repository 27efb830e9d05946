import Relabel.Proofs.Script.Lexemes

/-!
# Gaps behind each other

Where a gap ends depends on the text alone (`gapRest?`). A gap before a token is passed over whatever follows it
(`exists_passed`), so several of them behind each other are passed over as well.
-/

namespace Relabel.Script
variable {newline newline' : Bool} {offset offset' : Nat} {part part' : GapPart} {c : Char} {cs ds rest : List Char}
  {g : Gap}

theorem map_rest_gap? (newline newline' : Bool) (offset offset' : Nat) (part : GapPart) (cs : List Char) :
    (gap? newline offset part cs).map Gap.rest = (gap? newline' offset' part cs).map Gap.rest := by
  fun_induction gap? newline offset part cs generalizing newline' offset' with
  | case1 => rfl
  | case2 newline offset part hpart =>
    cases part with
    | blank => rfl
    | lineComment => rfl
    | blockComment => exact absurd rfl hpart
  | case3 newline offset cs ih => exact ih newline' (offset' + 2)
  | case4 newline offset cs ih => exact ih newline' (offset' + 2)
  | case5 newline offset cs ih => exact ih newline' (offset' + 2)
  | case6 newline offset c cs h1 h2 hline ih =>
    rw [ih true (offset' + c.utf8Size), gap?, if_pos hline]
    · exact h1
    · exact h2
  | case7 newline offset c cs h1 h2 hline hblank ih =>
    rw [ih newline' (offset' + c.utf8Size), gap?, if_neg hline, if_pos hblank]
    · exact h1
    · exact h2
  | case8 newline offset c cs h1 h2 hline hblank =>
    rw [gap?, if_neg hline, if_neg hblank]
    · rfl
    · exact h1
    · exact h2
  | case9 newline offset c cs hline ih => rw [ih true (offset' + c.utf8Size), gap?, if_pos hline]
  | case10 newline offset c cs hline ih => rw [ih newline' (offset' + c.utf8Size), gap?, if_neg hline]
  | case11 newline offset c cs hclose ih =>
    rw [ih (newline' || isLineEnd c) (offset' + c.utf8Size), gap?]
    exact hclose

/-- The text behind the gap at the start of a text. -/
def gapRest? (part : GapPart) (cs : List Char) : Option (List Char) :=
  (gap? false 0 part cs).map Gap.rest

theorem map_rest_gap?_eq (newline : Bool) (offset : Nat) (part : GapPart) (cs : List Char) :
    (gap? newline offset part cs).map Gap.rest = gapRest? part cs :=
  map_rest_gap? ..

theorem gapRest?_of_gap? (h : gap? newline offset part cs = some g) : gapRest? part cs = some g.rest := by
  rw [← map_rest_gap?_eq newline offset, h]
  rfl

theorem exists_gap?_of_gapRest? (h : gapRest? part cs = some rest) (newline : Bool) (offset : Nat) :
    ∃ g, gap? newline offset part cs = some g ∧ g.rest = rest := by
  rw [← map_rest_gap?_eq newline offset] at h
  exact Option.map_eq_some_iff.1 h

/-! ### Gaps before a token -/

/-- Whatever follows the text, it is passed over in a gap. -/
def Passed (part : GapPart) (cs : List Char) : Prop :=
  ∀ ds, gapRest? part (cs ++ ds) = gapRest? .blank ds

theorem passed_nil : Passed .blank [] := fun _ => rfl

theorem Passed.append (h : Passed part cs) (h' : Passed .blank ds) : Passed part (cs ++ ds) := by
  intro es
  rw [List.append_assoc, h, h']

theorem Passed.cons (h : Passed part' cs) (hc : ∀ ds, gapRest? part (c :: (cs ++ ds)) = gapRest? part' (cs ++ ds)) :
    Passed part (c :: cs) :=
  fun ds => (hc ds).trans (h ds)

/-- A comment ends with a mark. -/
theorem Passed.ne_nil (h : Passed .blockComment cs) : cs ≠ [] := by
  rintro rfl
  cases h []

theorem gapRest?_blank (hc : isLineEnd c = true ∨ isBlank c = true) (cs : List Char) :
    gapRest? .blank (c :: cs) = gapRest? .blank cs := by
  have hslash : c ≠ '/' := by
    rintro rfl
    revert hc
    decide
  rw [gapRest?, gap?_blank fun _ _ h => absurd h hslash]
  split
  · exact map_rest_gap? ..
  · next hline =>
    rw [if_pos (hc.resolve_left hline)]
    exact map_rest_gap? ..

/-- A gap before a token is passed over. -/
theorem exists_passed (h : gap? newline offset part cs = some g) (hrest : g.rest ≠ []) :
    ∃ gap, cs = gap ++ g.rest ∧ Passed part gap := by
  fun_induction gap? newline offset part cs with
  | case1 => cases h
  | case2 =>
    obtain rfl := Option.some.inj h
    exact absurd rfl hrest
  | case3 newline offset cs ih =>
    obtain ⟨gap, hcs, hgap⟩ := ih h
    exact ⟨'/' :: '/' :: gap, by rw [hcs]; rfl, fun ds => (map_rest_gap?_eq false 2 .lineComment _).trans (hgap ds)⟩
  | case4 newline offset cs ih =>
    obtain ⟨gap, hcs, hgap⟩ := ih h
    exact ⟨'/' :: '*' :: gap, by rw [hcs]; rfl, fun ds => (map_rest_gap?_eq false 2 .blockComment _).trans (hgap ds)⟩
  | case5 newline offset cs ih =>
    obtain ⟨gap, hcs, hgap⟩ := ih h
    exact ⟨'*' :: '/' :: gap, by rw [hcs]; rfl, fun ds => (map_rest_gap?_eq false 2 .blank _).trans (hgap ds)⟩
  | case6 newline offset c cs _ _ hline ih =>
    obtain ⟨gap, hcs, hgap⟩ := ih h
    exact ⟨c :: gap, by rw [hcs]; rfl, hgap.cons fun _ => gapRest?_blank (.inl hline) _⟩
  | case7 newline offset c cs _ _ _ hblank ih =>
    obtain ⟨gap, hcs, hgap⟩ := ih h
    exact ⟨c :: gap, by rw [hcs]; rfl, hgap.cons fun _ => gapRest?_blank (.inr hblank) _⟩
  | case8 newline offset c cs =>
    obtain rfl := Option.some.inj h
    exact ⟨[], rfl, passed_nil⟩
  | case9 newline offset c cs hline ih =>
    obtain ⟨gap, hcs, hgap⟩ := ih h
    refine ⟨c :: gap, by rw [hcs]; rfl, hgap.cons fun ds => ?_⟩
    rw [gapRest?, gap?, if_pos hline]
    exact map_rest_gap? ..
  | case10 newline offset c cs hline ih =>
    obtain ⟨gap, hcs, hgap⟩ := ih h
    refine ⟨c :: gap, by rw [hcs]; rfl, hgap.cons fun ds => ?_⟩
    rw [gapRest?, gap?, if_neg hline]
    exact map_rest_gap? ..
  | case11 newline offset c cs hclose ih =>
    obtain ⟨gap, hcs, hgap⟩ := ih h
    refine ⟨c :: gap, by rw [hcs]; rfl, hgap.cons fun ds => ?_⟩
    rw [gapRest?, gap?]
    · exact map_rest_gap? ..
    · -- the comment ends here no more than in the text
      rintro xs rfl hxs
      obtain ⟨d, gap, rfl⟩ := List.exists_cons_of_ne_nil hgap.ne_nil
      obtain ⟨rfl, -⟩ := List.cons.inj hxs
      exact hclose (gap ++ g.rest) rfl hcs

end Relabel.Script
