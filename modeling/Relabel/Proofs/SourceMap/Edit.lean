import Relabel.Proofs.SourceMap.Position

/-!
# Mappings under an edit

What `Mappings.applyEdit` leaves: every segment whose position the edit moves stands at the new
position, unless one that stood before it is moved there too (`at_applyEdit`). The lines stay in
ascending order of columns, one segment for a column (`increasing_applyEdit`).
-/

namespace Relabel.Mappings
variable {m : Mappings} {l segs : List Segment} {s t : Segment} {c : UInt32} {i k : Nat}
  {p q start stop newStop : Position} {moved : List (Position × Segment)}

/-- The segment `s` stands on a line. -/
def At (m : Mappings) (line : Nat) (s : Segment) : Prop :=
  ∃ segs, m.lines[line]? = some segs ∧ s ∈ segs

/-- Every line has its segments in ascending order of columns, one for a column. -/
def Increasing (m : Mappings) : Prop :=
  ∀ segs ∈ m.lines, segs.Pairwise fun a b => a.column < b.column

/-! ### The first segment of a column -/

theorem mem_cons_distinctAfter (h : s ∈ distinctAfter t.column l ↔
      s.column ≠ t.column ∧ l.find? (·.column = s.column) = some s) :
    s ∈ t :: distinctAfter t.column l ↔ (t :: l).find? (·.column = s.column) = some s := by
  rw [List.mem_cons, h]
  by_cases hst : t.column = s.column
  · rw [List.find?_cons_of_pos (by simpa using hst), Option.some.injEq]
    constructor
    · rintro (rfl | ⟨h, -⟩)
      · rfl
      · exact absurd hst.symm h
    · exact fun h => .inl h.symm
  · rw [List.find?_cons_of_neg (by simpa using hst)]
    constructor
    · rintro (rfl | ⟨-, h⟩)
      · exact absurd rfl hst
      · exact h
    · exact fun h => .inr ⟨Ne.symm hst, h⟩

theorem mem_distinctAfter (hl : l.Pairwise fun a b => a.column ≤ b.column)
    (hc : ∀ s ∈ l, c ≤ s.column) :
    s ∈ distinctAfter c l ↔ s.column ≠ c ∧ l.find? (·.column = s.column) = some s := by
  induction l generalizing c with
  | nil => simp [distinctAfter]
  | cons t l ih =>
    obtain ⟨ht, hl⟩ := List.pairwise_cons.1 hl
    rw [distinctAfter]
    split
    · next heq =>
      rw [ih hl fun s hs => hc s (List.mem_cons_of_mem t hs)]
      refine and_congr_right fun hne => ?_
      rw [List.find?_cons_of_neg (by simpa [heq] using Ne.symm hne)]
    · next hne =>
      rw [mem_cons_distinctAfter (ih hl ht), iff_and_self]
      have hct := UInt32.lt_of_le_of_ne (hc t (List.mem_cons_self ..)) (Ne.symm hne)
      intro h
      rcases List.mem_cons.1 (List.mem_of_find?_eq_some h) with rfl | hs
      · exact hne
      · exact (UInt32.ne_of_lt (UInt32.lt_of_lt_of_le hct (ht s hs))).symm

theorem mem_distinct (hl : l.Pairwise fun a b => a.column ≤ b.column) :
    s ∈ distinct l ↔ l.find? (·.column = s.column) = some s := by
  cases l with
  | nil => simp [distinct]
  | cons t l =>
    obtain ⟨ht, hl⟩ := List.pairwise_cons.1 hl
    exact mem_cons_distinctAfter (mem_distinctAfter hl ht)

theorem pairwise_distinctAfter (hl : l.Pairwise fun a b => a.column ≤ b.column)
    (hc : ∀ s ∈ l, c ≤ s.column) :
    (distinctAfter c l).Pairwise (fun a b => a.column < b.column) ∧
      ∀ s ∈ distinctAfter c l, c < s.column := by
  induction l generalizing c with
  | nil => simp [distinctAfter]
  | cons t l ih =>
    obtain ⟨ht, hl⟩ := List.pairwise_cons.1 hl
    rw [distinctAfter]
    split
    · exact ih hl fun s hs => hc s (List.mem_cons_of_mem t hs)
    · next hne =>
      obtain ⟨hpair, hlt⟩ := ih hl ht
      have hct := UInt32.lt_of_le_of_ne (hc t (List.mem_cons_self ..)) (Ne.symm hne)
      refine ⟨List.pairwise_cons.2 ⟨hlt, hpair⟩, fun s hs => ?_⟩
      rcases List.mem_cons.1 hs with rfl | hs
      · exact hct
      · exact UInt32.lt_trans hct (hlt s hs)

theorem pairwise_distinct (hl : l.Pairwise fun a b => a.column ≤ b.column) :
    (distinct l).Pairwise fun a b => a.column < b.column := by
  cases l with
  | nil => exact .nil
  | cons t l =>
    obtain ⟨ht, hl⟩ := List.pairwise_cons.1 hl
    obtain ⟨hpair, hlt⟩ := pairwise_distinctAfter hl ht
    exact List.pairwise_cons.2 ⟨hlt, hpair⟩

theorem column_le_trans (a b d : Segment) (hab : decide (a.column ≤ b.column) = true)
    (hbd : decide (b.column ≤ d.column) = true) : decide (a.column ≤ d.column) = true := by
  simp only [decide_eq_true_eq] at *
  exact UInt32.le_trans hab hbd

theorem column_le_total (a b : Segment) :
    (decide (a.column ≤ b.column) || decide (b.column ≤ a.column)) = true := by
  simp only [Bool.or_eq_true, decide_eq_true_eq]
  exact UInt32.le_total ..

/-- Sorting by columns keeps the first segment of a column the first. -/
theorem find?_mergeSort (l : List Segment) (c : UInt32) :
    (l.mergeSort fun a b => a.column ≤ b.column).find? (·.column = c) =
      l.find? (·.column = c) := by
  have hsub : (l.filter (·.column = c)).Sublist (l.mergeSort fun a b => a.column ≤ b.column) := by
    refine List.sublist_mergeSort column_le_trans column_le_total ?_ List.filter_sublist
    refine List.pairwise_of_forall_mem_list fun a ha b hb => ?_
    have ha := (List.mem_filter.1 ha).2
    have hb := (List.mem_filter.1 hb).2
    simp only [decide_eq_true_eq] at ha hb ⊢
    rw [ha, hb]
    exact UInt32.le_refl _
  have hperm := (List.mergeSort_perm l fun a b => a.column ≤ b.column).filter (·.column = c)
  have hsub := hsub.filter (·.column = c)
  rw [List.filter_filter] at hsub
  simp only [Bool.and_self] at hsub
  rw [← List.head?_filter, ← List.head?_filter, hsub.eq_of_length hperm.length_eq.symm]

/-! ### Lines of moved segments -/

theorem pairwise_lineOf (moved : List (Position × Segment)) (i : Nat) :
    (lineOf moved i).Pairwise fun a b => a.column < b.column := by
  refine pairwise_distinct ?_
  exact (List.pairwise_mergeSort column_le_trans column_le_total _).imp of_decide_eq_true

/-- At a position stands the first of the segments that were moved there. -/
theorem mem_lineOf {o : Option Origin} : ⟨q.column, o⟩ ∈ lineOf moved q.line.toNat ↔
    ∃ t, moved.find? (·.1 = q) = some (q, t) ∧ t.origin = o := by
  have hplace : (fun a : Position × Segment => Option.any (·.column = q.column)
      (if a.1.line.toNat = q.line.toNat then some { a.2 with column := a.1.column } else none)) =
      fun a => decide (a.1 = q) := by
    funext ⟨⟨line, column⟩, t⟩
    rw [Bool.eq_iff_iff]
    by_cases hline : line.toNat = q.line.toNat
    · rw [if_pos hline, Option.any_some, decide_eq_true_eq, decide_eq_true_eq]
      obtain rfl := UInt32.toNat_inj.1 hline
      exact ⟨congrArg (Position.mk q.line), congrArg Position.column⟩
    · rw [if_neg hline, decide_eq_true_eq]
      refine ⟨fun h => (nomatch h), ?_⟩
      rintro rfl
      exact absurd rfl hline
  rw [lineOf, mem_distinct ((List.pairwise_mergeSort column_le_trans column_le_total _).imp
    of_decide_eq_true), find?_mergeSort, List.find?_filterMap, hplace, Option.bind_eq_some_iff]
  constructor
  · rintro ⟨⟨p, t⟩, hf, h⟩
    have hp := List.find?_some hf
    simp only [decide_eq_true_eq] at hp
    obtain rfl := hp
    cases (if_pos rfl).symm.trans h
    exact ⟨t, hf, rfl⟩
  · rintro ⟨t, hf, rfl⟩
    exact ⟨(q, t), hf, if_pos rfl⟩

/-! ### Placed segments -/

theorem mem_placed {lines : List (List Segment)} : (p, s) ∈ placed k lines ↔
    ∃ i, At ⟨lines⟩ i s ∧ p = ⟨.ofNat (k + i), s.column⟩ := by
  induction lines generalizing k with
  | nil => simp [placed, At]
  | cons segs lines ih =>
    rw [placed, List.mem_append, ih, List.mem_map]
    constructor
    · rintro (⟨t, ht, h⟩ | ⟨i, ⟨segs', hi, hs⟩, hp⟩)
      · obtain ⟨rfl, rfl⟩ := Prod.mk.inj h
        exact ⟨0, ⟨segs, rfl, ht⟩, rfl⟩
      · exact ⟨i + 1, ⟨segs', hi, hs⟩, by rw [hp, Nat.add_right_comm, Nat.add_assoc]⟩
    · rintro ⟨i, ⟨segs', hi, hs⟩, hp⟩
      cases i with
      | zero =>
        obtain rfl := Option.some.inj hi
        exact .inl ⟨s, hs, by rw [hp, Nat.add_zero]⟩
      | succ i =>
        exact .inr ⟨i, ⟨segs', hi, hs⟩, by rw [hp, Nat.add_right_comm, Nat.add_assoc]⟩

/-- Segments are placed in the order of their positions. -/
theorem pairwise_placed {lines : List (List Segment)} (hinc : Increasing ⟨lines⟩)
    (hw : ∀ i s, At ⟨lines⟩ i s → k + i < 2 ^ 32) :
    (placed k lines).Pairwise fun a b => a.1 < b.1 := by
  induction lines generalizing k with
  | nil => exact .nil
  | cons segs lines ih =>
    have hcons : ∀ i s, At ⟨lines⟩ i s → At ⟨segs :: lines⟩ (i + 1) s := fun i s h => h
    rw [placed, List.pairwise_append, List.pairwise_map]
    refine ⟨?_, ?_, ?_⟩
    · refine (hinc segs (List.mem_cons_self ..)).imp fun h => ?_
      exact .inr ⟨rfl, h⟩
    · refine ih (fun segs' h => hinc segs' (List.mem_cons_of_mem segs h)) fun i s h => ?_
      have := hw (i + 1) s (hcons i s h)
      omega
    · rintro ⟨p, s⟩ hp ⟨q, t⟩ hq
      obtain ⟨s', hs, h⟩ := List.mem_map.1 hp
      obtain ⟨rfl, rfl⟩ := Prod.mk.inj h
      obtain ⟨i, hi, rfl⟩ := mem_placed.1 hq
      have := hw (i + 1) t (hcons i t hi)
      refine .inl ?_
      rw [UInt32.lt_iff_toNat_lt, UInt32.toNat_ofNat_of_lt' (by show k < 2 ^ 32; omega),
        UInt32.toNat_ofNat_of_lt' (by show k + 1 + i < 2 ^ 32; omega)]
      omega

/-- In a list in order the first of some kind is the least. -/
theorem find?_eq_some_iff_least {xs : List (Position × Segment)} {P : Position → Bool}
    (h : xs.Pairwise fun a b => a.1 < b.1) : xs.find? (P ·.1) = some (p, s) ↔
      (p, s) ∈ xs ∧ P p = true ∧ ∀ q t, (q, t) ∈ xs → P q = true → p ≤ q := by
  rw [List.find?_eq_some_iff_append]
  constructor
  · rintro ⟨hp, l₁, l₂, rfl, hnot⟩
    refine ⟨by simp, hp, fun q t hq hPq => ?_⟩
    rcases List.mem_append.1 hq with hq | hq
    · have := hnot _ hq
      simp [hPq] at this
    · rcases List.mem_cons.1 hq with hq | hq
      · rw [(Prod.mk.inj hq).1]
        exact Position.le_refl p
      · have := List.rel_of_pairwise_cons (List.pairwise_append.1 h).2.1 hq
        exact Position.le_of_lt this
  · rintro ⟨hmem, hp, hleast⟩
    obtain ⟨l₁, l₂, rfl⟩ := List.append_of_mem hmem
    refine ⟨hp, l₁, l₂, rfl, fun ⟨q, t⟩ hq => ?_⟩
    rw [Bool.not_eq_true', ← Bool.not_eq_true]
    intro hPq
    have hlt := (List.pairwise_append.1 h).2.2 _ hq _ (List.mem_cons_self ..)
    exact Position.not_le_of_lt hlt (hleast q t (List.mem_append_left _ hq) hPq)

/-! ### The edit -/

/-- The segments that an edit moves, each with its new position. -/
def movedBy (start stop newStop : Position) (m : Mappings) : List (Position × Segment) :=
  (placed 0 m.lines).filterMap fun (p, s) =>
    (shift? start stop newStop p).map fun q => (q, s)

theorem le_foldl_max (n : Nat) (moved : List (Position × Segment)) :
    n ≤ moved.foldl (fun n (p, _) => max n (p.line.toNat + 1)) n ∧
      ∀ x ∈ moved, x.1.line.toNat < moved.foldl (fun n (p, _) => max n (p.line.toNat + 1)) n := by
  induction moved generalizing n with
  | nil => exact ⟨Nat.le_refl n, fun x hx => nomatch hx⟩
  | cons y moved ih =>
    obtain ⟨hn, hx⟩ := ih (max n (y.1.line.toNat + 1))
    rw [List.foldl_cons]
    refine ⟨Nat.le_trans (Nat.le_max_left ..) hn, fun x hxy => ?_⟩
    rcases List.mem_cons.1 hxy with rfl | hxm
    · exact Nat.lt_of_succ_le (Nat.le_trans (Nat.le_max_right ..) hn)
    · exact hx x hxm

theorem lineCount_pos (h : m.lines ≠ []) : 0 < lineCount m.lines.length start stop newStop := by
  have := List.length_pos_iff.2 h
  rw [lineCount, if_neg (by omega)]
  simp only [Int.lt_toNat]
  omega

/-- There are lines for all that is moved. -/
theorem applyEdit_eq (m : Mappings) (start stop newStop : Position) : ∃ count,
    m.applyEdit start stop newStop =
        ⟨(List.range count).map (lineOf (movedBy start stop newStop m))⟩ ∧
      (∀ x ∈ movedBy start stop newStop m, x.1.line.toNat < count) ∧
      (m.lines ≠ [] → 0 < count) := by
  refine ⟨_, rfl, fun x hx => ?_, fun h => ?_⟩
  · exact Nat.lt_of_lt_of_le ((le_foldl_max 0 _).2 x hx) (Nat.le_max_right ..)
  · exact Nat.lt_of_lt_of_le (lineCount_pos h) (Nat.le_max_left ..)

theorem increasing_applyEdit (m : Mappings) (start stop newStop : Position) :
    (m.applyEdit start stop newStop).Increasing := by
  obtain ⟨count, heq, -⟩ := applyEdit_eq m start stop newStop
  intro segs hsegs
  rw [heq, List.mem_map] at hsegs
  obtain ⟨i, -, rfl⟩ := hsegs
  exact pairwise_lineOf _ i

theorem applyEdit_lines_ne_nil (h : m.lines ≠ []) : (m.applyEdit start stop newStop).lines ≠ [] := by
  obtain ⟨count, heq, -, hpos⟩ := applyEdit_eq m start stop newStop
  have := hpos h
  rw [heq, ← List.length_pos_iff, List.length_map, List.length_range]
  exact this

theorem exists_of_mem_lineOf (h : s ∈ lineOf moved i) :
    ∃ q : Position, q.line.toNat = i ∧ s = ⟨q.column, s.origin⟩ := by
  rw [lineOf, mem_distinct ((List.pairwise_mergeSort column_le_trans column_le_total _).imp
    of_decide_eq_true), find?_mergeSort] at h
  obtain ⟨⟨p, t⟩, -, h⟩ := List.mem_filterMap.1 (List.mem_of_find?_eq_some h)
  by_cases hp : p.line.toNat = i
  · cases (if_pos hp).symm.trans h
    exact ⟨p, hp, rfl⟩
  · exact nomatch (if_neg hp).symm.trans h

/-- Every segment on a line of the mappings after an edit stands at a position. -/
theorem exists_of_at_applyEdit (h : (m.applyEdit start stop newStop).At i s) :
    ∃ q : Position, q.line.toNat = i ∧ s = ⟨q.column, s.origin⟩ := by
  obtain ⟨count, heq, -⟩ := applyEdit_eq m start stop newStop
  obtain ⟨segs, hi, hs⟩ := h
  rw [heq, List.getElem?_map, Option.map_eq_some_iff] at hi
  obtain ⟨j, hj, rfl⟩ := hi
  obtain rfl : i = j := by
    rw [List.getElem?_eq_some_iff] at hj
    obtain ⟨hlt, rfl⟩ := hj
    rw [List.getElem_range]
  exact exists_of_mem_lineOf hs

theorem at_applyEdit_iff_find? {o : Option Origin} :
    (m.applyEdit start stop newStop).At q.line.toNat ⟨q.column, o⟩ ↔
      ∃ t, (movedBy start stop newStop m).find? (·.1 = q) = some (q, t) ∧ t.origin = o := by
  obtain ⟨count, heq, hcount, -⟩ := applyEdit_eq m start stop newStop
  rw [← mem_lineOf, heq, At]
  constructor
  · rintro ⟨segs, hi, hs⟩
    rw [List.getElem?_map, Option.map_eq_some_iff] at hi
    obtain ⟨j, hj, rfl⟩ := hi
    obtain ⟨hlt, rfl⟩ := List.getElem?_eq_some_iff.1 hj
    rwa [List.getElem_range] at hs
  · intro hs
    obtain ⟨t, ht, -⟩ := mem_lineOf.1 hs
    have hlt := hcount _ (List.mem_of_find?_eq_some ht)
    refine ⟨_, ?_, hs⟩
    rw [List.getElem?_map, List.getElem?_range hlt]
    rfl

/-- Every segment after an edit is one that stood somewhere and was moved. -/
theorem exists_shift?_of_at_applyEdit (h : (m.applyEdit start stop newStop).At i s) :
    ∃ j t q, m.At j t ∧ shift? start stop newStop ⟨.ofNat j, t.column⟩ = some q ∧
      q.line.toNat = i ∧ q.column = s.column := by
  obtain ⟨q, rfl, hs⟩ := exists_of_at_applyEdit h
  rw [hs] at h
  obtain ⟨t, hfind, -⟩ := at_applyEdit_iff_find?.1 h
  obtain ⟨⟨p, t'⟩, hp, hmap⟩ := List.mem_filterMap.1 (List.mem_of_find?_eq_some hfind)
  obtain ⟨q', hq, heq⟩ := Option.map_eq_some_iff.1 hmap
  obtain ⟨rfl, rfl⟩ := Prod.mk.inj heq
  obtain ⟨j, hj, rfl⟩ := mem_placed.1 hp
  rw [Nat.zero_add] at hq
  exact ⟨j, t', q', hj, hq, rfl, by rw [hs]⟩

/-- After an edit a segment stands at each position to which one at least was moved. It is the one
that stood first. -/
theorem at_applyEdit (hinc : m.Increasing) (hw : ∀ i s, m.At i s → i < 2 ^ 32) {o : Option Origin} :
    (m.applyEdit start stop newStop).At q.line.toNat ⟨q.column, o⟩ ↔
      ∃ j c, m.At j ⟨c, o⟩ ∧ shift? start stop newStop ⟨.ofNat j, c⟩ = some q ∧
        ∀ j' t, m.At j' t → shift? start stop newStop ⟨.ofNat j', t.column⟩ = some q →
          Position.mk (.ofNat j) c ≤ ⟨.ofNat j', t.column⟩ := by
  have hplace : (fun a : Position × Segment => Option.any (·.1 = q)
      ((shift? start stop newStop a.1).map fun p => (p, a.2))) =
      fun a => decide (shift? start stop newStop a.1 = some q) := by
    funext ⟨p, t⟩
    rw [Bool.eq_iff_iff, Option.any_map]
    cases shift? start stop newStop p <;> simp
  have hpair := @pairwise_placed 0 m.lines hinc (by simpa using hw)
  have hleast := fun p t =>
    @find?_eq_some_iff_least t p _ (fun p => decide (shift? start stop newStop p = some q)) hpair
  have hmem : ∀ p t, (p, t) ∈ placed 0 m.lines ↔ ∃ j, m.At j t ∧ p = ⟨.ofNat j, t.column⟩ :=
    fun p t => by simpa using @mem_placed t 0 p m.lines
  rw [at_applyEdit_iff_find?, movedBy]
  simp only [List.find?_filterMap, hplace, Option.bind_eq_some_iff, Prod.exists, hleast, hmem,
    decide_eq_true_eq, Option.map_eq_some_iff, Prod.mk.injEq]
  constructor
  · rintro ⟨t, ⟨p, t', ⟨⟨j, hj, rfl⟩, hq, hall⟩, q', -, -, rfl⟩, rfl⟩
    exact ⟨j, t'.column, hj, hq, fun j' u hu h => hall _ u ⟨j', hu, rfl⟩ h⟩
  · rintro ⟨j, c, hj, hq, hall⟩
    refine ⟨⟨c, o⟩, ⟨_, ⟨c, o⟩, ⟨⟨j, hj, rfl⟩, hq, ?_⟩, q, hq, rfl, rfl⟩, rfl⟩
    rintro p u ⟨j', hu, rfl⟩ h
    exact hall j' u hu h

end Relabel.Mappings
