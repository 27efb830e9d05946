import Relabel.Proofs.Splice.Order

/-!
# Byte offsets under edits

Where a byte offset of the old text is in the new one. `moved?` follows it through the edits one
after another, from the end of the text to its start; `Lands` says the same at once, as a sum over
the edits before the offset (`moved?_eq_some_iff`). The sum leaves some insertions out. A deletion
brings the offset at its end onto its start, and an insertion at that start is then no longer
before the offset: it is held back (`HeldBack`).
-/

namespace Relabel.Edit
variable {e d x : Edit} {edits es : List Edit} {o o' p p' q s : Nat}

/-- Where a byte offset is after an edit; strictly inside the replaced range it is gone. -/
def move? (e : Edit) (o : Nat) : Option Nat :=
  if o ≤ e.span.start then some o
  else if o < e.span.stop then none
  else some (o - e.span.stop + (e.span.start + Text.size e.text.toList))

/-- Where a byte offset is after some edits, one after another. -/
def moved? : List Edit → Nat → Option Nat
  | [], o => some o
  | e :: es, o => (e.move? o).bind (moved? es)

/-- The bytes that a text gains by an edit. -/
def growth (e : Edit) : Int :=
  Text.size e.text.toList - ((e.span.stop : Int) - e.span.start)

/-- Every byte from `s` up to `o` is taken away by an edit that puts nothing in its place. -/
def Gone (edits : List Edit) (s o : Nat) : Prop :=
  ∀ i < o, s ≤ i → ∃ d ∈ edits, d.text = "" ∧ d.span.start ≤ i ∧ i < d.span.stop

instance (edits : List Edit) (s o : Nat) : Decidable (Gone edits s o) :=
  inferInstanceAs (Decidable (∀ i < o, s ≤ i → ∃ d ∈ edits, d.text = "" ∧ d.span.start ≤ i ∧
    i < d.span.stop))

/-- An insertion before `o` that `o` is not moved along with: nothing is left between the two. -/
def HeldBack (edits : List Edit) (o : Nat) (e : Edit) : Prop :=
  e.span.start = e.span.stop ∧ Gone edits e.span.start o

instance (edits : List Edit) (o : Nat) : DecidablePred (HeldBack edits o) := fun e =>
  inferInstanceAs (Decidable (e.span.start = e.span.stop ∧ Gone edits e.span.start o))

/-- The edit `e` stands before `o` and pushes it on. -/
def Pushes (edits : List Edit) (o : Nat) (e : Edit) : Prop :=
  (e.span.start < o ∧ e.span.stop ≤ o) ∧ ¬ HeldBack edits o e

instance (edits : List Edit) (o : Nat) : DecidablePred (Pushes edits o) := fun e =>
  inferInstanceAs (Decidable ((e.span.start < o ∧ e.span.stop ≤ o) ∧ ¬ HeldBack edits o e))

/-- The byte offset `o` lies strictly inside a range that is replaced. -/
def Inside (edits : List Edit) (o : Nat) : Prop :=
  ∃ e ∈ edits, e.span.start < o ∧ o < e.span.stop

/-- The bytes gained by the different edits up to `o`. -/
def gained (edits : List Edit) (o : Nat) : Int :=
  ∑ e ∈ edits.toFinset with e.span.start < o ∧ e.span.stop ≤ o, growth e

/-- The bytes gained by the different edits up to `o` that push it on. -/
def pushed (edits : List Edit) (o : Nat) : Int :=
  ∑ e ∈ edits.toFinset with Pushes edits o e, growth e

/-- The byte offset `o` of the old text is `p` in the new one. -/
def Lands (edits : List Edit) (o p : Nat) : Prop :=
  ¬ Inside edits o ∧ (p : Int) = o + pushed edits o

/-! ### One edit -/

theorem move?_mono (h : o ≤ o') (hp : e.move? o = some p)
    (hp' : e.move? o' = some p') : p ≤ p' := by
  unfold move? at hp hp'
  split_ifs at hp hp' <;> simp only [Option.some.injEq] at hp hp' <;> omega

theorem gone_cons_of_le (h : o ≤ e.span.start) : Gone (e :: es) s o ↔ Gone es s o := by
  constructor
  · intro hg i hi hs
    obtain ⟨d, hd, ht, h1, h2⟩ := hg i hi hs
    rcases List.mem_cons.1 hd with rfl | hd
    · omega
    · exact ⟨d, hd, ht, h1, h2⟩
  · intro hg i hi hs
    obtain ⟨d, hd, h⟩ := hg i hi hs
    exact ⟨d, List.mem_cons_of_mem e hd, h⟩

theorem size_text : Text.size e.text.toList = 0 ↔ e.text = "" := by
  rw [Text.size_eq_zero, String.toList_eq_nil_iff]

/-- A byte that no edit takes away keeps the bytes around it from being gone. -/
theorem not_gone {i : Nat} (hs : s ≤ i) (hi : i < o)
    (h : ∀ d ∈ es, d.text = "" → ¬ (d.span.start ≤ i ∧ i < d.span.stop)) : ¬ Gone es s o := by
  intro hg
  obtain ⟨d, hd, ht, hd'⟩ := hg i hi hs
  exact h d hd ht hd'

theorem move?_of_stop_le (hs : e.span.start < o) (ho : e.span.stop ≤ o) :
    e.move? o = some (o - e.span.stop + (e.span.start + Text.size e.text.toList)) := by
  rw [move?, if_neg (by omega), if_neg (by omega)]

/-- What is gone up to an offset behind an edit is gone up to where the edit moves it. -/
theorem gone_cons_of_stop_le (he : e.span.start ≤ e.span.stop)
    (hes : ∀ d ∈ es, d.span.stop ≤ e.span.start) (hs : s ≤ e.span.start) (ho : e.span.start < o)
    (hstop : e.span.stop ≤ o) (hp : e.move? o = some p) :
    Gone (e :: es) s o ↔ Gone es s p := by
  rw [move?_of_stop_le ho hstop, Option.some.injEq] at hp
  constructor
  · intro hg
    -- nothing stays between `s` and `o`, so `e` is a deletion that ends at `o`
    have hend : o = e.span.stop := by
      by_contra hne
      refine not_gone (show s ≤ e.span.stop by omega) (by omega) (fun d hd _ => ?_) hg
      rcases List.mem_cons.1 hd with rfl | hd
      · omega
      · have := hes d hd
        omega
    have htext : e.text = "" := by
      by_contra hne
      refine not_gone hs ho (fun d hd ht => ?_) hg
      rcases List.mem_cons.1 hd with rfl | hd
      · exact absurd ht hne
      · have := hes d hd
        omega
    rw [size_text.2 htext] at hp
    obtain rfl : p = e.span.start := by omega
    intro i hi hsi
    obtain ⟨d, hd, ht, h1, h2⟩ := hg i (by omega) hsi
    rcases List.mem_cons.1 hd with rfl | hd
    · omega
    · exact ⟨d, hd, ht, h1, h2⟩
  · intro hg
    -- the other edits lie before `e`, so what they remove ends there
    have hle : p ≤ e.span.start := by
      by_contra hlt
      refine not_gone hs (Nat.lt_of_not_le hlt) (fun d hd _ => ?_) hg
      have := hes d hd
      omega
    have htext : e.text = "" := size_text.1 (by omega)
    intro i hi hsi
    by_cases hie : i < e.span.start
    · obtain ⟨d, hd, h⟩ := hg i (by omega) hsi
      exact ⟨d, List.mem_cons_of_mem e hd, h⟩
    · exact ⟨e, List.mem_cons_self .., htext, by omega, by omega⟩

/-! ### All edits -/

theorem pushed_cons (he : e ∉ es) (h : ∀ x ∈ es, Pushes (e :: es) o x ↔ Pushes es p x) :
    pushed (e :: es) o = (if Pushes (e :: es) o e then growth e else 0) + pushed es p := by
  unfold pushed
  rw [List.toFinset_cons, Finset.sum_filter, Finset.sum_insert (by rwa [List.mem_toFinset]),
    Finset.sum_filter]
  congr 1
  refine Finset.sum_congr rfl fun x hx => ?_
  exact if_congr (h x (List.mem_toFinset.1 hx)) rfl rfl

theorem inside_cons : Inside (e :: es) o ↔ (e.span.start < o ∧ o < e.span.stop) ∨ Inside es o := by
  simp only [Inside, List.mem_cons, exists_eq_or_imp]

/-- An offset before the edit `e`: the edits before `e` move it. -/
theorem lands_cons_of_le (hnot : e ∉ es) (ho : o ≤ e.span.start) :
    Lands (e :: es) o p ↔ Lands es o p := by
  have hpush : ∀ x ∈ es, Pushes (e :: es) o x ↔ Pushes es o x := fun x _ => by
    rw [Pushes, Pushes, HeldBack, HeldBack, gone_cons_of_le ho]
  have hself : ¬ Pushes (e :: es) o e := fun h => by
    have := h.1
    omega
  have hin : ¬ (e.span.start < o ∧ o < e.span.stop) := by omega
  rw [Lands, Lands, inside_cons, pushed_cons hnot hpush, if_neg hself, Int.zero_add]
  simp only [hin, false_or]

/-- An offset behind the edit `e`: it is moved along, and then the edits before `e` move it. -/
theorem lands_cons_of_stop_le (hnot : e ∉ es) (habove : ∀ x ∈ es, Above e x)
    (he : e.span.start ≤ e.span.stop) (hs : e.span.start < o) (ho : e.span.stop ≤ o)
    (hq : e.move? o = some q) : Lands (e :: es) o p ↔ Lands es q p := by
  have hclear : ∀ d ∈ es, d.span.stop ≤ e.span.start := fun d hd => (habove d hd).clear
  have hq' := hq
  rw [move?_of_stop_le hs ho, Option.some.injEq] at hq'
  have hpush : ∀ x ∈ es, Pushes (e :: es) o x ↔ Pushes es q x := by
    intro x hx
    have hx1 := (habove x hx).le
    have hx2 := hclear x hx
    have hgone : Gone (e :: es) x.span.start o ↔ Gone es x.span.start q :=
      gone_cons_of_stop_le he hclear (by omega) hs ho hq
    rw [Pushes, Pushes, HeldBack, HeldBack, hgone]
    refine ⟨fun ⟨_, hheld⟩ => ⟨⟨?_, by omega⟩, hheld⟩, fun ⟨_, hheld⟩ => ⟨by omega, hheld⟩⟩
    -- an insertion that `e` has brought the offset onto is held back
    by_contra hlt
    exact hheld ⟨by omega, fun i hi hxi => absurd hi (by omega)⟩
  have hself : Pushes (e :: es) o e := by
    refine ⟨⟨hs, ho⟩, fun ⟨heq, hg⟩ => not_gone (Nat.le_refl _) hs (fun d hd _ => ?_) hg⟩
    rcases List.mem_cons.1 hd with rfl | hd
    · omega
    · have := hclear d hd
      omega
  have hin : ¬ Inside (e :: es) o := by
    rintro ⟨d, hd, h1, h2⟩
    rcases List.mem_cons.1 hd with rfl | hd
    · omega
    · have := hclear d hd
      omega
  have hin' : ¬ Inside es q := by
    rintro ⟨d, hd, h1, h2⟩
    have := hclear d hd
    omega
  rw [Lands, Lands, pushed_cons hnot hpush, if_pos hself]
  simp only [hin, hin', not_false_eq_true, true_and, growth]
  omega

theorem moved?_eq_some_iff (hes : Descending es) (hle : ∀ e ∈ es, e.span.start ≤ e.span.stop) :
    moved? es o = some p ↔ Lands es o p := by
  induction es generalizing o p with
  | nil => simp [moved?, Lands, Inside, pushed, eq_comm]
  | cons e es ih =>
    obtain ⟨habove, hes⟩ := List.pairwise_cons.1 hes
    have he := hle e (List.mem_cons_self ..)
    have hnot : e ∉ es := fun h => (habove e h).ne rfl
    have ih : ∀ q, moved? es q = some p ↔ Lands es q p :=
      fun q => ih hes fun x hx => hle x (List.mem_cons_of_mem e hx)
    rcases Nat.lt_or_ge e.span.start o with hs | hs
    · rcases Nat.lt_or_ge o e.span.stop with ho | ho
      · have hin : Inside (e :: es) o := ⟨e, List.mem_cons_self .., hs, ho⟩
        rw [moved?, move?, if_neg (by omega), if_pos ho]
        simp [Lands, hin]
      · have hq := move?_of_stop_le hs ho
        rw [moved?, hq, Option.bind_some, ih, lands_cons_of_stop_le hnot habove he hs ho hq]
    · rw [moved?, move?, if_pos hs, Option.bind_some, ih, lands_cons_of_le hnot hs]

theorem growth_of_heldBack (h : HeldBack edits o e) : growth e = Text.size e.text.toList := by
  rw [growth, h.1, sub_self, sub_zero]

/-- An offset is pushed on by all that is gained before it exactly if no text is held back. -/
theorem pushed_eq_gained : pushed edits o = gained edits o ↔
    ∀ e ∈ edits, e.span.start < o → HeldBack edits o e → e.text = "" := by
  have hsplit : gained edits o = pushed edits o + ∑ e ∈ edits.toFinset with
      (e.span.start < o ∧ e.span.stop ≤ o) ∧ HeldBack edits o e, growth e := by
    rw [gained, ← Finset.sum_filter_add_sum_filter_not _ (HeldBack edits o), Finset.filter_filter,
      Finset.filter_filter, add_comm]
    rfl
  have hnonneg : ∀ e ∈ edits.toFinset.filter fun e =>
      (e.span.start < o ∧ e.span.stop ≤ o) ∧ HeldBack edits o e, 0 ≤ growth e := fun e he => by
    rw [growth_of_heldBack (Finset.mem_filter.1 he).2.2]
    exact Int.natCast_nonneg _
  rw [hsplit, eq_comm, add_eq_left, Finset.sum_eq_zero_iff_of_nonneg hnonneg]
  constructor
  · intro h e he hs hheld
    have := h e (Finset.mem_filter.2 ⟨List.mem_toFinset.2 he, ⟨hs, by rw [← hheld.1]; omega⟩, hheld⟩)
    rw [growth_of_heldBack hheld] at this
    exact size_text.1 (by omega)
  · intro h e he
    obtain ⟨he, ⟨hs, -⟩, hheld⟩ := Finset.mem_filter.1 he
    rw [growth_of_heldBack hheld, size_text.2 (h e (List.mem_toFinset.1 he) hs hheld)]
    rfl

theorem pushes_ordered : Pushes (ordered edits) o e ↔ Pushes edits o e := by
  simp only [Pushes, HeldBack, Gone, mem_ordered]

theorem pushed_ordered : pushed (ordered edits) o = pushed edits o := by
  have hset : (ordered edits).toFinset = edits.toFinset := by
    ext e
    rw [List.mem_toFinset, List.mem_toFinset, mem_ordered]
  unfold pushed
  rw [hset]
  exact Finset.sum_congr (Finset.filter_congr fun e _ => pushes_ordered) fun _ _ => rfl

theorem lands_ordered : Lands (ordered edits) o p ↔ Lands edits o p := by
  simp only [Lands, Inside, mem_ordered, pushed_ordered]

end Relabel.Edit
