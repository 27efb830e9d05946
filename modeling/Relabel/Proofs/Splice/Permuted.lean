import Relabel.Proofs.Splice.Order

/-!
# Edits in any order

Splicing gives the same result for the same edits in any order (`Mapped.splice_perm`). The ordered edits
need not be the same: edits of one range stay as they were given, and of equal ones only neighbours count
once. But two such lists have the same members from the end of the text to its start (`Ranked`). So the
first edit that fits no range has the same span in both, and so has the first clash; without a clash no two
edits have one range, and the lists are equal (`clash?_congr`).
-/

namespace Relabel.Edit
variable {content : List Char} {a a' b e x : Edit} {edits edits' es es' : List Edit} {p : Edit → Bool}

/-- Edits from the end of the text to its start; those of one range stand in any order, but no two equal
ones side by side. -/
structure Ranked (es : List Edit) : Prop where
  descending : es.Pairwise fun a b => Earlier b a ∨ b.span = a.span
  chain : es.IsChain (· ≠ ·)

theorem ranked_ordered (edits : List Edit) : Ranked (ordered edits) :=
  ⟨pairwise_ordered edits, isChain_distinct _⟩

theorem span_eq_of_le (hab : Earlier a b ∨ a.span = b.span) (hba : Earlier b a ∨ b.span = a.span) :
    a.span = b.span := by
  rcases hab with hab | hab
  · rcases hba with hba | hba
    · unfold Earlier at hab hba
      omega
    · exact hba.symm
  · exact hab

theorem not_earlier_of_span_eq (h : a.span = b.span) : ¬ Earlier a b := by
  unfold Earlier
  rw [h]
  omega

theorem Earlier.trans_le (hab : Earlier a b) (hxa : Earlier x a ∨ x.span = a.span) : Earlier x b := by
  unfold Earlier at *
  rcases hxa with hxa | hxa
  · omega
  · rwa [hxa]

theorem clashes_congr (ha : a.span = a'.span) (hb : b.span = e.span) : clashes a b = clashes a' e := by
  rw [clashes, clashes, ha, hb]

namespace Ranked

theorem tail (h : Ranked (a :: es)) : Ranked es :=
  ⟨(List.pairwise_cons.1 h.descending).2, h.chain.tail⟩

theorem le_head (h : Ranked (a :: es)) (hx : x ∈ a :: es) : Earlier x a ∨ x.span = a.span := by
  rcases List.mem_cons.1 hx with rfl | hx
  · exact .inr rfl
  · exact (List.pairwise_cons.1 h.descending).1 x hx

/-- Lists with the same members start with the same span. -/
theorem span_head (h : Ranked (a :: es)) (h' : Ranked (a' :: es'))
    (hmem : ∀ e, e ∈ a :: es ↔ e ∈ a' :: es') : a.span = a'.span :=
  span_eq_of_le (h'.le_head ((hmem a).1 (List.mem_cons_self ..)))
    (h.le_head ((hmem a').2 (List.mem_cons_self ..)))

theorem le_of_find? (h : Ranked es) (he : es.find? p = some e) (hx : x ∈ es) (hp : p x = true) :
    Earlier x e ∨ x.span = e.span := by
  obtain ⟨-, front, back, rfl, hfront⟩ := List.find?_eq_some_iff_append.1 he
  rcases List.mem_append.1 hx with hx | hx
  · have := hfront x hx
    rw [hp] at this
    cases this
  · have hback := (List.pairwise_append.1 h.descending).2.1
    exact le_head ⟨hback, (List.isChain_append.1 h.chain).2.1⟩ hx

/-- The first edit of a kind that only spans decide has one span. -/
theorem map_find? (h : Ranked es) (h' : Ranked es') (hmem : ∀ e, e ∈ es ↔ e ∈ es') :
    (es.find? p).map Edit.span = (es'.find? p).map Edit.span := by
  cases he : es.find? p with
  | none =>
    have hnone : es'.find? p = none :=
      List.find?_eq_none.2 fun x hx => List.find?_eq_none.1 he x ((hmem x).2 hx)
    rw [hnone]
  | some e =>
    have hp := List.find?_some he
    cases he' : es'.find? p with
    | none => exact absurd hp (List.find?_eq_none.1 he' e ((hmem e).1 (List.mem_of_find?_eq_some he)))
    | some e' =>
      have hle := h.le_of_find? he ((hmem e').2 (List.mem_of_find?_eq_some he')) (List.find?_some he')
      have hge := h'.le_of_find? he' ((hmem e).1 (List.mem_of_find?_eq_some he)) hp
      exact congrArg some (span_eq_of_le hge hle)

/-- Where a span occurs again, the first two edits have it, and they are different. -/
theorem exists_twin (h : Ranked (a :: es)) (hx : x ∈ es) (hspan : x.span = a.span) :
    ∃ b rest, es = b :: rest ∧ b.span = a.span ∧ b ≠ a := by
  cases es with
  | nil => cases hx
  | cons b rest =>
    refine ⟨b, rest, rfl, ?_, fun hba => (List.isChain_cons_cons.1 h.chain).1 hba.symm⟩
    rcases h.le_head (List.mem_cons_of_mem a (List.mem_cons_self ..)) with hb | hb
    · exact absurd (hb.trans_le (h.tail.le_head hx)) (not_earlier_of_span_eq hspan)
    · exact hb

/-- Whether the first span occurs again does not depend on the order. -/
theorem exists_again (h : Ranked (a :: es)) (hmem : ∀ e, e ∈ a :: es ↔ e ∈ a' :: es')
    (hhead : a.span = a'.span) (hx : x ∈ es) (hspan : x.span = a.span) : ∃ y ∈ es', y.span = a'.span := by
  obtain ⟨b, rest, rfl, hb, hne⟩ := h.exists_twin hx hspan
  by_cases ha : a = a'
  · have hmem' := (hmem b).1 (List.mem_cons_of_mem a (List.mem_cons_self ..))
    exact ⟨b, (List.mem_cons.1 hmem').resolve_left (ha ▸ hne), hb.trans hhead⟩
  · exact ⟨a, (List.mem_cons.1 ((hmem a).1 (List.mem_cons_self ..))).resolve_left ha, hhead⟩

theorem clash?_of_twin (h : Ranked (a :: es)) (hx : x ∈ es) (hspan : x.span = a.span) :
    ∃ b, clash? (a :: es) = some (a, b) ∧ b.span = a.span := by
  obtain ⟨b, rest, rfl, hb, -⟩ := h.exists_twin hx hspan
  exact ⟨b, by rw [clash?, if_pos (clashes_iff.2 (.inr hb))], hb⟩

/-- The first clash has the same spans in every order, and without a clash there is one order only. -/
theorem clash?_congr (h : Ranked es) (h' : Ranked es') (hmem : ∀ e, e ∈ es ↔ e ∈ es') :
    (clash? es).map (Prod.map Edit.span Edit.span) = (clash? es').map (Prod.map Edit.span Edit.span) ∧
      (clash? es = none → es = es') := by
  induction es generalizing es' with
  | nil =>
    obtain rfl : es' = [] := List.eq_nil_iff_forall_not_mem.2 fun e he => List.not_mem_nil ((hmem e).2 he)
    exact ⟨rfl, fun _ => rfl⟩
  | cons a es ih =>
    cases es' with
    | nil => exact absurd ((hmem a).1 List.mem_cons_self) List.not_mem_nil
    | cons a' es' =>
      have hhead := h.span_head h' hmem
      by_cases hagain : ∃ x ∈ es, x.span = a.span
      · obtain ⟨x, hx, hspan⟩ := hagain
        obtain ⟨y, hy, hspan'⟩ := h.exists_again hmem hhead hx hspan
        obtain ⟨b, hclash, hb⟩ := h.clash?_of_twin hx hspan
        obtain ⟨b', hclash', hb'⟩ := h'.clash?_of_twin hy hspan'
        simp [hclash, hclash', hb, hb', hhead]
      · -- the first edit is alone on its range, so it is first in both lists
        have hagain' : ¬ ∃ y ∈ es', y.span = a'.span := by
          rintro ⟨y, hy, hspan⟩
          exact hagain (h'.exists_again (fun e => (hmem e).symm) hhead.symm hy hspan)
        obtain rfl : a' = a := by
          by_contra hne
          exact hagain ⟨a', (List.mem_cons.1 ((hmem a').2 (List.mem_cons_self ..))).resolve_left hne,
            hhead.symm⟩
        have hrest : ∀ e, e ∈ es ↔ e ∈ es' := by
          intro e
          have he := hmem e
          by_cases hea : e = a'
          · exact ⟨fun hes => absurd ⟨e, hes, hea ▸ rfl⟩ hagain, fun hes => absurd ⟨e, hes, hea ▸ rfl⟩ hagain'⟩
          · simpa [hea] using he
        obtain ⟨hspans, heq⟩ := ih h.tail h'.tail hrest
        cases es with
        | nil =>
          obtain rfl : es' = [] := List.eq_nil_iff_forall_not_mem.2 fun e he => List.not_mem_nil ((hrest e).2 he)
          exact ⟨rfl, fun _ => rfl⟩
        | cons b es =>
          cases es' with
          | nil => exact absurd ((hrest b).1 List.mem_cons_self) List.not_mem_nil
          | cons b' es' =>
            have hb := h.tail.span_head h'.tail hrest
            rw [clash?, clash?, clashes_congr rfl hb]
            split
            · exact ⟨by simp [hb], fun hnone => by cases hnone⟩
            · exact ⟨hspans, fun hnone => congrArg (a' :: ·) (heq hnone)⟩

end Ranked

/-- Edits are checked with the same result in every order. -/
theorem check_perm (document : String) (content : List Char) (h : edits.Perm edits') :
    check document content edits = check document content edits' := by
  have hmem : ∀ e, e ∈ ordered edits ↔ e ∈ ordered edits' := fun e => by
    rw [mem_ordered, mem_ordered, h.mem_iff]
  have hranked := ranked_ordered edits
  have hranked' := ranked_ordered edits'
  have hfind := @Ranked.map_find? _ _ (! fits content ·) hranked hranked' hmem
  obtain ⟨hclash, heq⟩ := hranked.clash?_congr hranked' hmem
  rw [check, check]
  cases hf : (ordered edits).find? (! fits content ·) with
  | some e =>
    rw [hf] at hfind
    obtain ⟨e', hf', hspan⟩ := Option.map_eq_some_iff.1 hfind.symm
    simp [hf', hspan]
  | none =>
    rw [hf] at hfind
    have hf' := Option.map_eq_none_iff.1 hfind.symm
    cases hc : clash? (ordered edits) with
    | some pair =>
      obtain ⟨later, earlier⟩ := pair
      rw [hc] at hclash
      obtain ⟨⟨later', earlier'⟩, hc', hspans⟩ := Option.map_eq_some_iff.1 hclash.symm
      obtain ⟨hlater, hearlier⟩ := Prod.mk.inj hspans
      simp [hf', hc', show later'.span = later.span from hlater, show earlier'.span = earlier.span from hearlier]
    | none =>
      rw [hc] at hclash
      have hc' := Option.map_eq_none_iff.1 hclash.symm
      simp [hf', hc', heq hc]

end Relabel.Edit

namespace Relabel.Mapped

/-- A splice does not depend on the order in which its edits are given: the text, the source map, and where it
fails the failure with all that it tells are the same. -/
theorem splice_perm (document : String) (text : Mapped) {edits edits' : List Edit} (h : edits.Perm edits') :
    splice document text edits = splice document text edits' := by
  rw [splice, splice, Edit.check_perm document text.content.toList h]

/-- Of three edits on one range two are equal. Given apart they stay three, given side by side they count as two,
and the failure is the same. -/
theorem splice_perm_tied :
    let x : Edit := ⟨⟨1, 2⟩, "x"⟩
    let y : Edit := ⟨⟨1, 2⟩, "y"⟩
    let text : Mapped := ⟨"abc", some { version := 3, mappings := "AAAA" }⟩
    Edit.ordered [x, y, x] = [x, y, x] ∧ Edit.ordered [x, x, y] = [x, y] ∧
      [x, y, x].Perm [x, x, y] ∧ splice "d" text [x, y, x] = .error (.overlap "d" ⟨1, 2⟩ 1) := by
  intro x y text
  have hapart : Edit.ordered [x, y, x] = [x, y, x] := by
    rw [Edit.ordered, List.mergeSort_of_pairwise (by decide)]
    rfl
  have htogether : Edit.ordered [x, x, y] = [x, y] := by
    rw [Edit.ordered, List.mergeSort_of_pairwise (by decide)]
    rfl
  have hperm : [x, y, x].Perm [x, x, y] := (List.Perm.swap ..).cons x
  refine ⟨hapart, htogether, hperm, ?_⟩
  have hcheck : Edit.check "d" "abc".toList [x, x, y] = .error (.overlap "d" ⟨1, 2⟩ 1) := by
    rw [Edit.check, htogether]
    decide
  rw [splice_perm "d" text hperm, splice, hcheck]
  rfl

end Relabel.Mapped
