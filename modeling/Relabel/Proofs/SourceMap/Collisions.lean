import Relabel.Proofs.Splice.Exact

/-!
# Edits of mappings in any order

Nothing is asked of the mappings here: the segments of a line may stand in any order, and several on one
column. An edit keeps what is not strictly between the ends of the replaced text and moves it to its
`image`, which never changes the order of two positions (`image_mono`). Lines may be joined by that, so
segments of different lines meet. Of those that land on one column of a line the first stays, in the order
in which they stood before (`edited_of_applyEdit`).
-/

namespace Relabel.Mappings
open Position
variable {m : Mappings} {start stop newStop p q : Position} {x : Nat × Segment} {i : Nat} {c : UInt32}
  {o : Option Origin}

/-- A position that is not strictly between the ends of a replaced text. -/
def Kept (start stop p : Position) : Prop :=
  ¬ (start < p ∧ p < stop)

instance (start stop p : Position) : Decidable (Kept start stop p) :=
  inferInstanceAs (Decidable (¬ _))

/-- The segments with their lines, in the order in which they stand. -/
def listed (m : Mappings) : List (Nat × Segment) :=
  m.lines.zipIdx.flatMap fun (segs, i) => segs.map fun s => (i, s)

/-- Where a segment stands on its line. -/
def place (x : Nat × Segment) : Position :=
  ⟨.ofNat x.1, x.2.column⟩

/-- An edit keeps a segment, and moves it to a column of a line. -/
structure Lands (start stop newStop : Position) (i : Nat) (c : UInt32) (x : Nat × Segment) : Prop where
  kept : Kept start stop (place x)
  image_eq : image start stop newStop (place x) = ((i : Int), (c.toNat : Int))

/-- The lines of the mappings and all that an edit computes for their segments are words. -/
structure InWords (start stop newStop : Position) (m : Mappings) : Prop where
  line : ∀ x ∈ m.listed, x.1 < 2 ^ 32
  image_lt : ∀ x ∈ m.listed, Kept start stop (place x) →
    (image start stop newStop (place x)).1 < 2 ^ 32 ∧ (image start stop newStop (place x)).2 < 2 ^ 32

instance : Decidable (Lands start stop newStop i c x) :=
  decidable_of_iff (Kept start stop (place x) ∧ image start stop newStop (place x) = ((i : Int), (c.toNat : Int)))
    ⟨fun h => ⟨h.1, h.2⟩, fun h => ⟨h.kept, h.image_eq⟩⟩

/-! ### Listed segments -/

theorem placed_eq_map (k : Nat) (lines : List (List Segment)) :
    placed k lines = ((lines.zipIdx k).flatMap fun (segs, i) => segs.map fun s => (i, s)).map
      fun x => (place x, x.2) := by
  induction lines generalizing k with
  | nil => rfl
  | cons segs lines ih =>
    rw [placed, ih, List.zipIdx_cons, List.flatMap_cons, List.map_append, List.map_map]
    rfl

theorem movedBy_eq (start stop newStop : Position) (m : Mappings) :
    movedBy start stop newStop m =
      m.listed.filterMap fun x => (shift? start stop newStop (place x)).map fun q => (q, x.2) := by
  rw [movedBy, placed_eq_map, List.filterMap_map]
  rfl

/-! ### One position -/

theorem coords_inj : p.coords = q.coords ↔ p = q := by
  refine ⟨fun h => ?_, congrArg coords⟩
  obtain ⟨hline, hcolumn⟩ := Prod.mk.inj h
  obtain ⟨pl, pc⟩ := p
  obtain ⟨ql, qc⟩ := q
  obtain rfl := UInt32.toNat_inj.1 (Int.ofNat.inj hline)
  obtain rfl := UInt32.toNat_inj.1 (Int.ofNat.inj hcolumn)
  rfl

theorem not_le : ¬ p ≤ q ↔ q < p := by
  rw [le_iff, lt_iff]
  omega

theorem isSome_shift?_iff : (shift? start stop newStop p).isSome ↔ Kept start stop p := by
  unfold shift? Kept
  split
  · next h => exact iff_of_true rfl fun hlt => not_le_of_lt hlt.1 h
  · next h =>
    rw [not_le] at h
    split
    · next hlt => exact iff_of_false nofun fun hkept => hkept ⟨h, hlt⟩
    · next hlt => exact iff_of_true (by split <;> rfl) fun hboth => hlt hboth.2

/-- Where nothing exceeds a word, an edit moves a segment to where it lands. -/
theorem shift?_eq_some_iff (h : InWords start stop newStop m) (hx : x ∈ m.listed) :
    shift? start stop newStop (place x) = some q ↔ Lands start stop newStop q.line.toNat q.column x := by
  constructor
  · intro hq
    have hkept : Kept start stop (place x) := isSome_shift?_iff.1 (by rw [hq]; rfl)
    exact ⟨hkept, ((exact_iff hq).2 (h.image_lt x hx hkept)).symm⟩
  · rintro ⟨hkept, himage⟩
    have hsome : (shift? start stop newStop (place x)).isSome := isSome_shift?_iff.2 hkept
    obtain ⟨q', hq'⟩ := Option.isSome_iff_exists.1 hsome
    have hexact := (exact_iff hq').2 (h.image_lt x hx hkept)
    rw [hq', coords_inj.1 (hexact.trans himage)]

/-- What is kept stays in order: all behind the replaced text comes behind the text put in its place, and
that is not before the start. -/
theorem image_mono (hnew : start ≤ newStop) (hq : Kept start stop q) (h : p ≤ q) :
    toLex (image start stop newStop p) ≤ toLex (image start stop newStop q) := by
  simp only [Kept, lt_iff] at hq
  simp only [image, coords, le_iff, ← UInt32.toNat_inj, Prod.Lex.toLex_le_toLex] at *
  split_ifs <;> simp only [true_and] <;> omega

/-! ### The edit -/

/-- Of the segments that an edit moves to a position, the first is the first listed one that lands there. -/
theorem find?_movedBy (h : InWords start stop newStop m) (q : Position) :
    (movedBy start stop newStop m).find? (·.1 = q) =
      (m.listed.find? fun x => Lands start stop newStop q.line.toNat q.column x).map fun x => (q, x.2) := by
  have hlands : m.listed.find? (fun x => Option.any (·.1 = q)
      ((shift? start stop newStop (place x)).map fun p => (p, x.2))) =
      m.listed.find? fun x => Lands start stop newStop q.line.toNat q.column x := by
    refine List.find?_congr fun x hx => ?_
    rw [Bool.eq_iff_iff, decide_eq_true_iff, ← shift?_eq_some_iff h hx, Option.any_map]
    cases shift? start stop newStop (place x) <;> simp
  rw [movedBy_eq, List.find?_filterMap, hlands]
  cases hfind : m.listed.find? fun x => Lands start stop newStop q.line.toNat q.column x with
  | none => rfl
  | some x =>
    have hx := List.find?_some hfind
    rw [decide_eq_true_iff, ← shift?_eq_some_iff h (List.mem_of_find?_eq_some hfind)] at hx
    rw [Option.bind_some, hx]
    rfl

/-- On a column of a line stands what landed there first. -/
theorem at_iff_lands (h : InWords start stop newStop m) :
    (m.applyEdit start stop newStop).At i ⟨c, o⟩ ↔
      ∃ before x after, m.listed = before ++ x :: after ∧ Lands start stop newStop i c x ∧
        x.2.origin = o ∧ ∀ y ∈ before, ¬ Lands start stop newStop i c y := by
  -- a line on which something stands or lands is a word, and so the line of a position
  suffices hpos : ∀ q : Position, (m.applyEdit start stop newStop).At q.line.toNat ⟨q.column, o⟩ ↔
      ∃ before x after, m.listed = before ++ x :: after ∧
        Lands start stop newStop q.line.toNat q.column x ∧ x.2.origin = o ∧
        ∀ y ∈ before, ¬ Lands start stop newStop q.line.toNat q.column y by
    constructor
    · intro hs
      obtain ⟨q, rfl, hq⟩ := exists_of_at_applyEdit hs
      obtain rfl := (Segment.mk.inj hq).1
      exact (hpos q).1 hs
    · rintro ⟨before, x, after, hlist, hx, hrest⟩
      have himage := (h.image_lt x (hlist ▸ by simp) hx.kept).1
      rw [hx.image_eq] at himage
      have hi : (UInt32.ofNat i).toNat = i := UInt32.toNat_ofNat_of_lt' (show i < 2 ^ 32 by simpa using himage)
      have hq := hpos ⟨.ofNat i, c⟩
      rw [hi] at hq
      exact hq.2 ⟨before, x, after, hlist, hx, hrest⟩
  intro q
  rw [at_applyEdit_iff_find?, find?_movedBy h q]
  simp only [Option.map_eq_some_iff, Prod.mk.injEq, true_and, List.find?_eq_some_iff_append,
    decide_eq_true_eq, Bool.not_eq_true', decide_eq_false_iff_not]
  constructor
  · rintro ⟨t, ⟨x, ⟨hx, before, after, hlist, hfirst⟩, rfl⟩, ho⟩
    exact ⟨before, x, after, hlist, hx, ho, hfirst⟩
  · rintro ⟨before, x, after, hlist, hx, ho, hfirst⟩
    exact ⟨x.2, ⟨x, ⟨hx, before, after, hlist, hfirst⟩, rfl⟩, ho⟩

/-- How many lines an edit leaves: one at least, but mappings without lines stay so. -/
def linesAfter (start stop newStop : Position) (m : Mappings) : Int :=
  if m.lines = [] then 0
  else max 1 (m.lines.length - (stop.line.toNat - start.line.toNat) + (newStop.line.toNat - start.line.toNat))

theorem lineCount_eq_linesAfter (hstop : start ≤ stop) (hnew : start ≤ newStop) :
    (lineCount m.lines.length start stop newStop : Int) = linesAfter start stop newStop m := by
  have hsub {p : Position} (h : start ≤ p) : (p.line - start.line).toNat = p.line.toNat - start.line.toNat := by
    refine UInt32.toNat_sub_of_le _ _ (UInt32.le_iff_toNat_le.2 ?_)
    rw [le_iff] at h
    omega
  rw [le_iff] at hstop hnew
  rw [lineCount, linesAfter, hsub (le_iff.2 hstop), hsub (le_iff.2 hnew)]
  simp only [List.length_eq_zero_iff]
  split
  · rfl
  · omega

theorem foldl_max_eq (n : Nat) (moved : List (Position × Segment)) :
    moved.foldl (fun n (p, _) => max n (p.line.toNat + 1)) n = n ∨
      ∃ x ∈ moved, moved.foldl (fun n (p, _) => max n (p.line.toNat + 1)) n = x.1.line.toNat + 1 := by
  induction moved generalizing n with
  | nil => exact .inl rfl
  | cons y moved ih =>
    rw [List.foldl_cons]
    rcases ih (max n (y.1.line.toNat + 1)) with h | ⟨x, hx, h⟩
    · rw [h]
      rcases Nat.le_total n (y.1.line.toNat + 1) with hle | hle
      · exact .inr ⟨y, List.mem_cons_self .., Nat.max_eq_right hle⟩
      · exact .inl (Nat.max_eq_left hle)
    · exact .inr ⟨x, List.mem_cons_of_mem y hx, h⟩

/-- Further lines are there only for what stands on the last of them. -/
theorem length_applyEdit (m : Mappings) (start stop newStop : Position) :
    lineCount m.lines.length start stop newStop ≤ (m.applyEdit start stop newStop).lines.length ∧
      ((m.applyEdit start stop newStop).lines.length = lineCount m.lines.length start stop newStop ∨
        ∃ s, (m.applyEdit start stop newStop).At ((m.applyEdit start stop newStop).lines.length - 1) s) := by
  have hlength : (m.applyEdit start stop newStop).lines.length =
      max (lineCount m.lines.length start stop newStop)
        ((movedBy start stop newStop m).foldl (fun n (p, _) => max n (p.line.toNat + 1)) 0) := by
    rw [applyEdit, List.length_map, List.length_range]
    rfl
  refine ⟨hlength ▸ Nat.le_max_left .., ?_⟩
  rcases foldl_max_eq 0 (movedBy start stop newStop m) with h | ⟨x, hx, h⟩
  · rw [h, Nat.max_eq_left (Nat.zero_le _)] at hlength
    exact .inl hlength
  · rw [h] at hlength
    rcases Nat.le_total (x.1.line.toNat + 1) (lineCount m.lines.length start stop newStop) with hle | hle
    · exact .inl (hlength.trans (Nat.max_eq_left hle))
    · have hsome : ((movedBy start stop newStop m).find? (·.1 = x.1)).isSome :=
        List.find?_isSome.2 ⟨x, hx, decide_eq_true rfl⟩
      obtain ⟨⟨q, t⟩, hfind⟩ := Option.isSome_iff_exists.1 hsome
      have hq := List.find?_some hfind
      obtain rfl : q = x.1 := of_decide_eq_true hq
      rw [hlength, Nat.max_eq_right hle, Nat.add_sub_cancel]
      exact .inr ⟨_, at_applyEdit_iff_find?.2 ⟨t, hfind, rfl⟩⟩

/-- Mappings after an edit. The columns of every line ascend; on a column of a line stands the first of the
segments that are kept and moved there, with the origin that it had; what is kept keeps its order; and the
lines are those of the new text, unless a segment stands further down. -/
theorem edited_of_applyEdit (hstop : start ≤ stop) (hnew : start ≤ newStop)
    (h : InWords start stop newStop m) :
    (m.applyEdit start stop newStop).Increasing ∧
      (∀ i c o, (m.applyEdit start stop newStop).At i ⟨c, o⟩ ↔
        ∃ before x after, m.listed = before ++ x :: after ∧ Lands start stop newStop i c x ∧
          x.2.origin = o ∧ ∀ y ∈ before, ¬ Lands start stop newStop i c y) ∧
      (∀ x ∈ m.listed, ∀ y ∈ m.listed, Kept start stop (place x) → Kept start stop (place y) →
        place x ≤ place y →
        toLex (image start stop newStop (place x)) ≤ toLex (image start stop newStop (place y))) ∧
      linesAfter start stop newStop m ≤ (m.applyEdit start stop newStop).lines.length ∧
      ((m.applyEdit start stop newStop).lines.length = linesAfter start stop newStop m ∨
        ∃ s, (m.applyEdit start stop newStop).At ((m.applyEdit start stop newStop).lines.length - 1) s) := by
  obtain ⟨hle, hlast⟩ := length_applyEdit m start stop newStop
  refine ⟨increasing_applyEdit m start stop newStop, fun i c o => at_iff_lands h, ?_, ?_, ?_⟩
  · intro x _ y _ _ hy hxy
    exact image_mono hnew hy hxy
  · rw [← lineCount_eq_linesAfter hstop hnew]
    exact Int.ofNat_le.2 hle
  · rw [← lineCount_eq_linesAfter hstop hnew]
    exact hlast.imp_left (congrArg _)

/-- Two lines are joined where a segment stands on either side. The one that was listed first stays, although
another one left of it is listed behind it, and so do the others of the second line. -/
theorem edited_of_applyEdit_joined :
    let origin (n : UInt32) : Option Origin := some ⟨0, n, 0, none⟩
    let m : Mappings := ⟨[[⟨5, origin 0⟩, ⟨1, origin 1⟩], [⟨2, origin 2⟩, ⟨0, origin 3⟩], [⟨3, none⟩]]⟩
    let joined := m.applyEdit ⟨0, 5⟩ ⟨1, 0⟩ ⟨0, 5⟩
    (⟨0, 5⟩ : Position) ≤ ⟨1, 0⟩ ∧ (⟨0, 5⟩ : Position) ≤ ⟨0, 5⟩ ∧ InWords ⟨0, 5⟩ ⟨1, 0⟩ ⟨0, 5⟩ m ∧
      joined.Increasing ∧ joined.At 0 ⟨5, origin 0⟩ ∧ joined.At 0 ⟨7, origin 2⟩ ∧ joined.At 1 ⟨3, none⟩ ∧
      2 ≤ joined.lines.length := by
  intro origin m joined
  have hwords : InWords ⟨0, 5⟩ ⟨1, 0⟩ ⟨0, 5⟩ m := ⟨by decide, by decide⟩
  obtain ⟨hinc, hat, -, hlines, -⟩ := edited_of_applyEdit (by decide) (by decide) hwords
  refine ⟨by decide, by decide, hwords, hinc, (hat ..).2 ?_, (hat ..).2 ?_, (hat ..).2 ?_, ?_⟩
  · exact ⟨[], _, _, rfl, ⟨by decide, by decide⟩, rfl, nofun⟩
  · exact ⟨[_, _], _, _, rfl, ⟨by decide, by decide⟩, rfl, by decide⟩
  · exact ⟨[_, _, _, _], _, _, rfl, ⟨by decide, by decide⟩, rfl, by decide⟩
  · exact Int.ofNat_le.1 hlines

end Relabel.Mappings
