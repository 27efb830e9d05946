import Mathlib.Data.List.Destutter
import Relabel.Proofs.Text.Classes
import Relabel.Text.Spelling

/-!
# Back from a property to its attribute

`camelCase` absorbs a hyphen into the letter behind it, and `hyphenate` writes the hyphen again. What
does not come back is the case of the letters and all but one of some hyphens in a row
(`hyphenate_camelCase_lowercase`). So a property leads back to the name of its attribute exactly if that
name has no upper-case letter and no two hyphens in a row (`respelled_eq_self_iff`,
`hyphenate_camelCase_eq_self_iff`). In the other direction a hyphen that `hyphenate` writes always stands
before its letter, so a property without hyphens comes back as it is (`camelCase_hyphenate`).
-/

namespace Relabel.Text
variable {c : Char} {cs : List Char} {pending : Bool} {x y : String}

/-- No ASCII upper-case letter and no two hyphens in a row. -/
structure Hyphened (cs : List Char) : Prop where
  lower : ∀ c ∈ cs, ¬ ('A' ≤ c ∧ c ≤ 'Z')
  single : ¬ ['-', '-'] <:+: cs

/-- A text with one hyphen for all hyphens in a row. -/
def oneHyphen (cs : List Char) : List Char :=
  cs.destutter fun a b => ¬ (a = '-' ∧ b = '-')

/-- What the name of an attribute becomes when its property is written as an attribute again. -/
def respelled (cs : List Char) : List Char :=
  oneHyphen (cs.map lowerAscii)

/-! ### Letters -/

theorem hyphenateChar_upperAscii (h : 'a' ≤ c ∧ c ≤ 'z') : hyphenateChar (upperAscii c) = ['-', c] :=
  of_codes (P := fun c => hyphenateChar (upperAscii c) = ['-', c]) (by decide) h

theorem hyphenateChar_of_lower (h : ¬ ('A' ≤ c ∧ c ≤ 'Z')) : hyphenateChar c = [c] := by
  rw [hyphenateChar, if_neg (by simpa using h)]

theorem lowerAscii_of_lower (h : ¬ ('A' ≤ c ∧ c ≤ 'Z')) : lowerAscii c = c := by
  rw [lowerAscii, if_neg (by simpa using h)]

theorem lowerAscii_of_upper (h : 'A' ≤ c ∧ c ≤ 'Z') : 'a' ≤ lowerAscii c ∧ lowerAscii c ≤ 'z' :=
  of_codes (P := fun c => 'a' ≤ lowerAscii c ∧ lowerAscii c ≤ 'z') (by decide) h

theorem upperAscii_lowerAscii (h : 'A' ≤ c ∧ c ≤ 'Z') : upperAscii (lowerAscii c) = c :=
  of_codes (P := fun c => upperAscii (lowerAscii c) = c) (by decide) h

/-- A letter in lower case is no upper-case letter. -/
theorem lower_lowerAscii (c : Char) : ¬ ('A' ≤ lowerAscii c ∧ lowerAscii c ≤ 'Z') := by
  by_cases h : 'A' ≤ c ∧ c ≤ 'Z'
  · exact fun hupper => absurd (Char.le_trans (lowerAscii_of_upper h).1 hupper.2) (by decide)
  · rwa [lowerAscii_of_lower h]

/-- Only letters come from another character. -/
theorem eq_of_lowerAscii_eq {d : Char} (hd : isAsciiLetter d = false) (h : lowerAscii c = d) : c = d := by
  by_cases hc : 'A' ≤ c ∧ c ≤ 'Z'
  · have hletter := lowerAscii_of_upper hc
    rw [h] at hletter
    simp [isAsciiLetter, hletter] at hd
  · rwa [lowerAscii_of_lower hc] at h

theorem map_lowerAscii_eq_self_iff : cs.map lowerAscii = cs ↔ ∀ c ∈ cs, ¬ ('A' ≤ c ∧ c ≤ 'Z') := by
  constructor
  · intro h c hc
    rw [← h] at hc
    obtain ⟨d, -, rfl⟩ := List.mem_map.1 hc
    exact lower_lowerAscii d
  · intro h
    exact (List.map_congr_left fun c hc => lowerAscii_of_lower (h c hc)).trans (List.map_id cs)

/-! ### Hyphens -/

theorem oneHyphen_cons_of_ne (h : c ≠ '-') (cs : List Char) : oneHyphen (c :: cs) = c :: oneHyphen cs := by
  cases cs with
  | nil => rfl
  | cons d cs =>
    rw [oneHyphen, List.destutter_cons_cons, if_pos fun hboth => h hboth.1]
    rfl

theorem oneHyphen_hyphen_hyphen (cs : List Char) :
    oneHyphen ('-' :: '-' :: cs) = oneHyphen ('-' :: cs) := by
  rw [oneHyphen, List.destutter_cons_cons, if_neg (not_not_intro ⟨rfl, rfl⟩)]
  rfl

theorem oneHyphen_hyphen_cons (h : c ≠ '-') (cs : List Char) :
    oneHyphen ('-' :: c :: cs) = '-' :: oneHyphen (c :: cs) := by
  rw [oneHyphen, List.destutter_cons_cons, if_pos fun hboth => h hboth.2]
  rfl

theorem oneHyphen_eq_self_iff : oneHyphen cs = cs ↔ ¬ ['-', '-'] <:+: cs := by
  rw [oneHyphen, List.destutter_eq_self_iff, List.isChain_iff_forall_rel_of_append_cons_cons]
  constructor
  · rintro h ⟨l, r, rfl⟩
    have hsplit : l ++ ['-', '-'] ++ r = l ++ '-' :: '-' :: r := by simp
    exact h hsplit ⟨rfl, rfl⟩
  · rintro h a b l r rfl ⟨rfl, rfl⟩
    exact h ⟨l, r, by simp⟩

/-- The letters of a name change only if they are upper case, and hyphens are lost only next to another
one. -/
theorem respelled_eq_self_iff : respelled cs = cs ↔ Hyphened cs := by
  constructor
  · intro h
    have hsublist : (respelled cs).Sublist (cs.map lowerAscii) := List.destutter_sublist ..
    have hlower : cs.map lowerAscii = cs := by
      rw [h] at hsublist
      exact (hsublist.eq_of_length (List.length_map _).symm).symm
    rw [respelled, hlower] at h
    exact ⟨map_lowerAscii_eq_self_iff.1 hlower, oneHyphen_eq_self_iff.1 h⟩
  · intro h
    rw [respelled, map_lowerAscii_eq_self_iff.2 h.lower, oneHyphen_eq_self_iff.2 h.single]

/-! ### The way back -/

theorem flatMap_hyphenateChar_of_lower (h : ∀ c ∈ cs, ¬ ('A' ≤ c ∧ c ≤ 'Z')) :
    cs.flatMap hyphenateChar = cs := by
  induction cs with
  | nil => rfl
  | cons c cs ih =>
    obtain ⟨hc, hcs⟩ := List.forall_mem_cons.1 h
    rw [List.flatMap_cons, hyphenateChar_of_lower hc, ih hcs]
    rfl

/-- No upper-case letter is left in the name of an attribute. -/
theorem lower_flatMap_hyphenateChar (h : c ∈ cs.flatMap hyphenateChar) : ¬ ('A' ≤ c ∧ c ≤ 'Z') := by
  obtain ⟨d, -, hc⟩ := List.mem_flatMap.1 h
  by_cases hd : 'A' ≤ d ∧ d ≤ 'Z'
  · rw [hyphenateChar, if_pos (by simpa using hd)] at hc
    rcases List.mem_cons.1 hc with rfl | hc
    · decide
    · rw [List.mem_singleton.1 hc]
      exact lower_lowerAscii d
  · rw [hyphenateChar_of_lower hd, List.mem_singleton] at hc
    rwa [hc]

/-- The rest of a name, with the hyphen that is pending. -/
theorem flatMap_camelFrom (cs : List Char) : (camelFrom pending cs).flatMap hyphenateChar =
    (oneHyphen (if pending then '-' :: cs else cs)).flatMap hyphenateChar := by
  induction cs generalizing pending with
  | nil => cases pending <;> rfl
  | cons c cs ih =>
    rw [camelFrom]
    split
    · next hhyphen =>
      subst hhyphen
      rw [ih]
      cases pending with
      | true => exact congrArg _ (oneHyphen_hyphen_hyphen cs).symm
      | false => rfl
    · next hhyphen =>
      have hplain : hyphenateChar c ++ (camelFrom false cs).flatMap hyphenateChar =
          (oneHyphen (c :: cs)).flatMap hyphenateChar := by
        rw [ih, oneHyphen_cons_of_ne hhyphen]
        rfl
      cases pending with
      | false => simpa using hplain
      | true =>
        show _ = (oneHyphen ('-' :: c :: cs)).flatMap hyphenateChar
        rw [oneHyphen_hyphen_cons hhyphen, List.flatMap_cons, ← hplain]
        split
        -- the letter takes the hyphen, and gives it back
        · next hletter =>
          have hsmall : 'a' ≤ c ∧ c ≤ 'z' := by simpa using hletter
          have hlower : ¬ ('A' ≤ c ∧ c ≤ 'Z') := fun h => absurd (Char.le_trans hsmall.1 h.2) (by decide)
          rw [List.flatMap_cons, hyphenateChar_upperAscii hsmall, hyphenateChar_of_lower hlower]
          rfl
        · rw [if_pos rfl, List.flatMap_cons, List.flatMap_cons]

/-- Of a name nothing is lost but some of its hyphens in a row, whatever its letters are. -/
theorem hyphenate_camelCase_eq (x : String) :
    hyphenate (camelCase x) = hyphenate (.ofList (oneHyphen x.toList)) := by
  simp only [hyphenate, camelCase, String.toList_ofList, flatMap_camelFrom]
  rfl

theorem hyphenate_of_lower (h : ∀ c ∈ cs, ¬ ('A' ≤ c ∧ c ≤ 'Z')) : hyphenate (.ofList cs) = .ofList cs := by
  rw [hyphenate, String.toList_ofList, flatMap_hyphenateChar_of_lower h]

theorem hyphenate_camelCase_of_lower (h : ∀ c ∈ cs, ¬ ('A' ≤ c ∧ c ≤ 'Z')) :
    hyphenate (camelCase (.ofList cs)) = .ofList (oneHyphen cs) := by
  rw [hyphenate_camelCase_eq, String.toList_ofList]
  exact hyphenate_of_lower fun c hc => h c ((List.destutter_sublist ..).subset hc)

/-- The property of an attribute leads back to the name of the attribute in lower case, with one hyphen
for all hyphens in a row. -/
theorem hyphenate_camelCase_lowercase (cs : List Char) :
    hyphenate (camelCase (lowercase (.ofList cs))) = .ofList (respelled cs) := by
  have hlower : ∀ c ∈ cs.map lowerAscii, ¬ ('A' ≤ c ∧ c ≤ 'Z') := by
    intro c hc
    obtain ⟨d, -, rfl⟩ := List.mem_map.1 hc
    exact lower_lowerAscii d
  rw [lowercase, String.toList_ofList, hyphenate_camelCase_of_lower hlower]
  rfl

theorem hyphenate_camelCase (h : Hyphened cs) :
    hyphenate (camelCase (lowercase (.ofList cs))) = .ofList cs := by
  rw [hyphenate_camelCase_lowercase, respelled_eq_self_iff.2 h]

example : hyphenate (camelCase "data-foo-bar") = "data-foo-bar" := by decide

/-- A name comes back from its property with one hyphen for all hyphens in a row: hyphens at the ends and
before other characters than letters stay, and so does every hyphen that stands alone. So it comes back as
it was exactly if it is written like the name of an attribute. -/
theorem hyphenate_camelCase_eq_self_iff (x : String) :
    ((∀ c ∈ x.toList, ¬ ('A' ≤ c ∧ c ≤ 'Z')) → hyphenate (camelCase x) = .ofList (oneHyphen x.toList)) ∧
      (hyphenate (camelCase x) = x ↔ Hyphened x.toList) := by
  have hback (hlower : ∀ c ∈ x.toList, ¬ ('A' ≤ c ∧ c ≤ 'Z')) :
      hyphenate (camelCase x) = .ofList (oneHyphen x.toList) := by
    have := hyphenate_camelCase_of_lower hlower
    rwa [String.ofList_toList] at this
  refine ⟨hback, fun h => ?_, fun h => ?_⟩
  · have hlower : ∀ c ∈ x.toList, ¬ ('A' ≤ c ∧ c ≤ 'Z') := by
      intro c hc
      rw [← h, hyphenate, String.toList_ofList] at hc
      exact lower_flatMap_hyphenateChar hc
    refine ⟨hlower, oneHyphen_eq_self_iff.1 ?_⟩
    have htoList := congrArg String.toList (hback hlower)
    rwa [h, String.toList_ofList, eq_comm] at htoList
  · rw [hback h.lower, oneHyphen_eq_self_iff.2 h.single, String.ofList_toList]

/-- Hyphens at the ends, before a digit and before a sign come back; of two in a row one does. -/
theorem hyphenate_camelCase_eq_self_iff_ends :
    (∀ c ∈ "-a-1-$b-é-".toList, ¬ ('A' ≤ c ∧ c ≤ 'Z')) ∧ hyphenate (camelCase "-a-1-$b-é-") = "-a-1-$b-é-" ∧
      (∀ c ∈ "a--b".toList, ¬ ('A' ≤ c ∧ c ≤ 'Z')) ∧ hyphenate (camelCase "a--b") = "a-b" := by
  have hends : ∀ c ∈ "-a-1-$b-é-".toList, ¬ ('A' ≤ c ∧ c ≤ 'Z') :=
    map_lowerAscii_eq_self_iff.1 (by decide)
  have hrow : ∀ c ∈ "a--b".toList, ¬ ('A' ≤ c ∧ c ≤ 'Z') := map_lowerAscii_eq_self_iff.1 (by decide)
  exact ⟨hends, (hyphenate_camelCase_eq_self_iff _).2.2 ⟨hends, by decide⟩, hrow,
    (hyphenate_camelCase_eq_self_iff _).1 hrow⟩

/-- A name in lower case that does not come back. -/
theorem exists_hyphenate_camelCase_ne :
    ∃ x : String, (∀ c ∈ x.toList, ¬ ('A' ≤ c ∧ c ≤ 'Z')) ∧ hyphenate (camelCase x) ≠ x :=
  ⟨"a--b", map_lowerAscii_eq_self_iff.1 (by decide), by decide⟩

/-! ### The way forth -/

/-- The hyphen of an upper-case letter is absorbed by that letter, and there is no other one. -/
theorem camelFrom_flatMap (h : '-' ∉ cs) : camelFrom false (cs.flatMap hyphenateChar) = cs := by
  induction cs with
  | nil => rfl
  | cons c cs ih =>
    obtain ⟨hc, hcs⟩ := not_or.1 (mt List.mem_cons.2 h)
    rw [List.flatMap_cons, hyphenateChar]
    split
    · next hupper =>
      have hupper : 'A' ≤ c ∧ c ≤ 'Z' := by simpa using hupper
      have hsmall := lowerAscii_of_upper hupper
      have hletter : lowerAscii c ≠ '-' := fun h => absurd (h ▸ hsmall.1) (by decide)
      rw [List.cons_append, List.cons_append, camelFrom, if_pos rfl, camelFrom, if_neg hletter,
        if_pos (by simpa using hsmall), upperAscii_lowerAscii hupper]
      exact congrArg _ (ih hcs)
    · rw [List.singleton_append, camelFrom, if_neg (Ne.symm hc), if_neg (by simp), if_neg (by simp), ih hcs]

/-- A property without hyphens, in any letters, is the property of the name that it is written as. -/
theorem camelCase_hyphenate (h : '-' ∉ x.toList) : camelCase (hyphenate x) = x := by
  rw [camelCase, hyphenate, String.toList_ofList, camelFrom_flatMap h, String.ofList_toList]

/-- Properties without hyphens are written in different ways. -/
theorem hyphenate_inj (hx : '-' ∉ x.toList) (hy : '-' ∉ y.toList) : hyphenate x = hyphenate y ↔ x = y := by
  refine ⟨fun h => ?_, congrArg hyphenate⟩
  rw [← camelCase_hyphenate hx, h, camelCase_hyphenate hy]

example : hyphenate "aB" = hyphenate "a-b" := by decide

end Relabel.Text
