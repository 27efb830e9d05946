import Mathlib.Data.List.Chain
import Relabel.Proofs.Text.Boundary
import Relabel.Splice

/-!
# The order of edits

`Edit.ordered` sorts edits from the end of the text to its start and lets equal neighbours count
once. `Edit.clash?` looks at neighbours only; here that is shown to be enough. Where every range is
one of the text, no two neighbours clash exactly if any two different edits stand clear of each
other (`clash?_eq_none_iff`), and then the ordered edits are strictly descending (`Descending`).
-/

namespace Relabel.Edit
variable {content : List Char} {a b c e : Edit} {edits es : List Edit}

/-- The range of an edit starts before it stops, and both ends are boundaries of the text. -/
structure Fits (content : List Char) (e : Edit) : Prop where
  le : e.span.start ≤ e.span.stop
  start : Text.Boundary content e.span.start
  stop : Text.Boundary content e.span.stop

theorem fits_iff : fits content e = true ↔ Fits content e := by
  simp only [fits, Bool.and_eq_true, decide_eq_true_eq, Text.isBoundary_iff]
  exact ⟨fun ⟨⟨h, h1⟩, h2⟩ => ⟨h, h1, h2⟩, fun h => ⟨⟨h.le, h.start⟩, h.stop⟩⟩

theorem not_fits_iff : (! fits content e) = true ↔ ¬ Fits content e := by
  rw [← fits_iff, Bool.not_eq_true', Bool.not_eq_true]

/-- The ranges of two edits have a byte in common. -/
def SharesByte (a b : Edit) : Prop :=
  ∃ i, (a.span.start ≤ i ∧ i < a.span.stop) ∧ b.span.start ≤ i ∧ i < b.span.stop

/-- `a` takes nothing away and puts its text strictly inside the range of `b`. -/
def InsertsInside (a b : Edit) : Prop :=
  a.span.start = a.span.stop ∧ b.span.start < a.span.start ∧ a.span.start < b.span.stop

/-- Two edits that cannot both be carried out. -/
def Collide (a b : Edit) : Prop :=
  a.span = b.span ∨ SharesByte a b ∨ InsertsInside a b ∨ InsertsInside b a

/-- `b` comes before `a` in the text: an insertion at the start of a range comes before it. -/
def Earlier (b a : Edit) : Prop :=
  b.span.start < a.span.start ∨ b.span.start = a.span.start ∧ b.span.stop < a.span.stop

theorem precedes_iff : precedes a b = true ↔ Earlier b a ∨ b.span = a.span := by
  obtain ⟨⟨s, t⟩, x⟩ := a
  obtain ⟨⟨s', t'⟩, y⟩ := b
  simp only [precedes, Earlier, Bool.or_eq_true, Bool.and_eq_true, decide_eq_true_eq, Span.mk.injEq]
  omega

/-! ### Sorting -/

theorem precedes_total (a b : Edit) : (precedes a b || precedes b a) = true := by
  simp only [precedes, Bool.or_eq_true, Bool.and_eq_true, decide_eq_true_eq]
  omega

theorem precedes_trans (a b c : Edit) (hab : precedes a b = true) (hbc : precedes b c = true) :
    precedes a c = true := by
  simp only [precedes, Bool.or_eq_true, Bool.and_eq_true, decide_eq_true_eq] at *
  omega

theorem mem_distinct : ∀ {es : List Edit}, e ∈ distinct es ↔ e ∈ es
  | [] => by rw [distinct]
  | [_] => by rw [distinct]
  | a :: b :: rest => by
    rw [distinct]
    split
    · next h => rw [mem_distinct, h]; simp
    · simp only [List.mem_cons, mem_distinct]

theorem distinct_sublist : ∀ es : List Edit, (distinct es).Sublist es
  | [] => by rw [distinct]
  | [_] => by rw [distinct]
  | a :: b :: rest => by
    rw [distinct]
    split
    · exact (distinct_sublist (b :: rest)).cons a
    · exact (distinct_sublist (b :: rest)).cons_cons a

theorem head?_distinct : ∀ es : List Edit, (distinct es).head? = es.head?
  | [] => by rw [distinct]
  | [_] => by rw [distinct]
  | a :: b :: rest => by
    rw [distinct]
    split
    · next h => rw [head?_distinct (b :: rest), h]; rfl
    · rfl

/-- No two neighbours are equal once each counts once. -/
theorem isChain_distinct : ∀ es : List Edit, (distinct es).IsChain (· ≠ ·)
  | [] => by rw [distinct]; exact .nil
  | [_] => by rw [distinct]; exact .singleton _
  | a :: b :: rest => by
    rw [distinct]
    split
    · exact isChain_distinct (b :: rest)
    · next h =>
      refine List.isChain_cons.2 ⟨fun x hx => ?_, isChain_distinct (b :: rest)⟩
      rw [head?_distinct] at hx
      obtain rfl := Option.some.inj hx
      exact h

theorem mem_ordered : e ∈ ordered edits ↔ e ∈ edits := by
  rw [ordered, mem_distinct, List.mem_mergeSort]

/-- Each ordered edit precedes those behind it. -/
theorem pairwise_ordered (edits : List Edit) :
    (ordered edits).Pairwise fun a b => Earlier b a ∨ b.span = a.span := by
  have h := List.pairwise_mergeSort precedes_trans precedes_total edits
  exact (h.sublist (distinct_sublist _)).imp precedes_iff.1

/-! ### Neighbours are enough -/

theorem clashes_iff : clashes a b = true ↔ a.span.start < b.span.stop ∨ b.span = a.span := by
  simp [clashes]

theorem clash?_eq_none : ∀ {es : List Edit},
    clash? es = none ↔ es.IsChain fun a b => b.span.stop ≤ a.span.start ∧ b.span ≠ a.span
  | [] => by simp [clash?]
  | [_] => by simp [clash?]
  | a :: b :: rest => by
    rw [clash?, List.isChain_cons_cons]
    split
    · next h =>
      have := clashes_iff.1 h
      simp only [reduceCtorEq, false_iff]
      rintro ⟨⟨h1, h2⟩, -⟩
      rcases this with h | h
      · omega
      · exact h2 h
    · next h =>
      have h' := fun hc => h (clashes_iff.2 hc)
      rw [clash?_eq_none]
      exact ⟨fun hr => ⟨⟨Nat.not_lt.1 fun hl => h' (.inl hl), fun hs => h' (.inr hs)⟩, hr⟩,
        fun hr => hr.2⟩

/-- Two neighbours that clash stand one behind the other in the list. -/
theorem clash?_eq_some : ∀ {es : List Edit}, clash? es = some (a, b) →
    clashes a b = true ∧ ∃ l₁ l₂, es = l₁ ++ a :: b :: l₂
  | [], h => by simp [clash?] at h
  | [_], h => by simp [clash?] at h
  | x :: y :: rest, h => by
    rw [clash?] at h
    split at h
    · next hc =>
      obtain ⟨rfl, rfl⟩ := Prod.mk.inj (Option.some.inj h)
      exact ⟨hc, [], rest, rfl⟩
    · obtain ⟨hc, l₁, l₂, hl⟩ := clash?_eq_some h
      exact ⟨hc, x :: l₁, l₂, by rw [hl]; rfl⟩

/-- `a` stands clear of `b`, behind it in the text; `b` has a range that does not stop before it
starts. -/
structure Above (a b : Edit) : Prop where
  le : b.span.start ≤ b.span.stop
  clear : b.span.stop ≤ a.span.start
  earlier : Earlier b a

theorem Above.trans (hab : Above a b) (hbc : Above b c) : Above a c := by
  refine ⟨hbc.le, Nat.le_trans hbc.clear (Nat.le_trans hab.le hab.clear), ?_⟩
  have h1 := hab.earlier
  have h2 := hbc.earlier
  unfold Earlier at *
  omega

theorem Above.ne (h : Above a b) : a ≠ b := by
  rintro rfl
  have := h.earlier
  unfold Earlier at this
  omega

theorem Above.not_collide (h : Above a b) : ¬ Collide a b := by
  have hc := h.clear
  have hb := h.le
  have he := h.earlier
  unfold Earlier at he
  rintro (hs | ⟨i, h1, h2⟩ | ⟨h1, h2, h3⟩ | ⟨h1, h2, h3⟩)
  · have h1 := congrArg Span.start hs
    have h2 := congrArg Span.stop hs
    omega
  · omega
  · omega
  · omega

theorem Collide.symm (h : Collide a b) : Collide b a := by
  rcases h with h | ⟨i, h1, h2⟩ | h | h
  · exact .inl h.symm
  · exact .inr (.inl ⟨i, h2, h1⟩)
  · exact .inr (.inr (.inr h))
  · exact .inr (.inr (.inl h))

/-- Edits from the end of the text to its start, each clear of all that follow. -/
def Descending (es : List Edit) : Prop :=
  es.Pairwise Above

/-- If no two neighbours clash, any two edits stand clear of each other. -/
theorem descending_of_clash?_eq_none (hle : ∀ e ∈ edits, e.span.start ≤ e.span.stop)
    (h : clash? (ordered edits) = none) : Descending (ordered edits) := by
  have htrans : IsTrans Edit Above := ⟨fun _ _ _ => Above.trans⟩
  refine (List.isChain_iff_forall_rel_of_append_cons_cons.2 fun a b l₁ l₂ hl => ?_).pairwise
  have hb : b ∈ edits := mem_ordered.1 (by rw [hl]; simp)
  have hord := pairwise_ordered edits
  rw [hl] at hord
  have hord := List.rel_of_pairwise_cons (List.pairwise_append.1 hord).2.1 (List.mem_cons_self ..)
  obtain ⟨hclear, hne⟩ :=
    List.isChain_iff_forall_rel_of_append_cons_cons.1 (clash?_eq_none.1 h) hl
  exact ⟨hle b hb, hclear, hord.resolve_right hne⟩

/-- Neighbours that clash are two different edits that collide. -/
theorem collide_of_clash? (hle : ∀ e ∈ edits, e.span.start ≤ e.span.stop)
    (h : clash? (ordered edits) = some (a, b)) :
    a ∈ edits ∧ b ∈ edits ∧ a ≠ b ∧ Collide a b := by
  obtain ⟨hc, l₁, l₂, hl⟩ := clash?_eq_some h
  have ha : a ∈ edits := mem_ordered.1 (by rw [hl]; simp)
  have hb : b ∈ edits := mem_ordered.1 (by rw [hl]; simp)
  have hord := pairwise_ordered edits
  rw [hl] at hord
  have hord := List.rel_of_pairwise_cons (List.pairwise_append.1 hord).2.1 (List.mem_cons_self ..)
  have hne : a ≠ b :=
    List.isChain_iff_forall_rel_of_append_cons_cons.1 (isChain_distinct (edits.mergeSort precedes)) hl
  refine ⟨ha, hb, hne, ?_⟩
  rcases clashes_iff.1 hc with hlt | hs
  · have h1 := hle a ha
    have h2 := hle b hb
    rcases hord with hord | hs
    · unfold Earlier at hord
      by_cases hins : a.span.start = a.span.stop
      · exact .inr (.inr (.inl ⟨hins, by omega, hlt⟩))
      · exact .inr (.inl ⟨a.span.start, by omega, by omega⟩)
    · exact .inl hs.symm
  · exact .inl hs.symm

theorem clash?_eq_none_iff (hle : ∀ e ∈ edits, e.span.start ≤ e.span.stop) :
    clash? (ordered edits) = none ↔ ∀ a ∈ edits, ∀ b ∈ edits, a ≠ b → ¬ Collide a b := by
  constructor
  · intro h a ha b hb hne
    have hd := List.pairwise_iff_getElem.1 (descending_of_clash?_eq_none hle h)
    obtain ⟨i, hi, rfl⟩ := List.getElem_of_mem (mem_ordered.2 ha)
    obtain ⟨j, hj, rfl⟩ := List.getElem_of_mem (mem_ordered.2 hb)
    rcases Nat.lt_trichotomy i j with hij | rfl | hij
    · exact (hd i j hi hj hij).not_collide
    · exact absurd rfl hne
    · exact fun hc =>
        (hd j i hj hi hij).not_collide hc.symm
  · intro h
    cases hc : clash? (ordered edits) with
    | none => rfl
    | some p =>
      obtain ⟨a, b⟩ := p
      obtain ⟨ha, hb, hne, hcol⟩ := collide_of_clash? hle hc
      exact absurd hcol (h a ha b hb hne)

end Relabel.Edit
