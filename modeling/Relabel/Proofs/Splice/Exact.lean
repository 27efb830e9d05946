import Relabel.Proofs.Splice.SourceMap

/-!
# Exact positions

Positions are words, so a segment far to the right wraps when it is moved further. Whether a call of
`Mappings.applyEdit` is exact is decided by the sums alone (`exact_iff`): no difference ever falls
below zero. For a whole run there is a bound on what goes in. A segment has as many columns before it
as the lines above it and its own line up to it hold; an edit adds to them at most the width of its
text (`Room.applyTo`). So with room for all the texts every call is exact (`Mapped.exact_of_splice`).
-/

namespace Relabel

namespace Position
open Text
variable {a b cs : List Char} {i : Nat}

/-- The line and the column as integers. -/
def coords (p : Position) : Int × Int :=
  (p.line.toNat, p.column.toNat)

/-- The columns on the lines above a line, line breaks included. -/
def widthAbove : Nat → List Char → Nat
  | 0, _ => 0
  | _ + 1, [] => 0
  | i + 1, c :: cs => units c + if c = '\n' then widthAbove i cs else widthAbove (i + 1) cs

@[simp] theorem widthAbove_zero (cs : List Char) : widthAbove 0 cs = 0 := by
  rw [widthAbove]

theorem breaks_cons (c : Char) (cs : List Char) :
    breaks (c :: cs) = (if c = '\n' then 1 else 0) + breaks cs := by
  rw [breaks, List.count_cons, Nat.add_comm]
  simp only [beq_iff_eq, breaks]

theorem widthAbove_append (h : i ≤ breaks a) (b : List Char) :
    widthAbove i (a ++ b) = widthAbove i a := by
  induction a generalizing i with
  | nil =>
    obtain rfl := Nat.le_zero.1 h
    rw [widthAbove_zero, widthAbove_zero]
  | cons c a ih =>
    cases i with
    | zero => rw [widthAbove_zero, widthAbove_zero]
    | succ i =>
      rw [breaks_cons] at h
      rw [List.cons_append, widthAbove, widthAbove]
      split
      · next hc =>
        rw [if_pos hc] at h
        rw [ih (by omega)]
      · next hc =>
        rw [if_neg hc] at h
        rw [ih (by omega)]

theorem widthAbove_breaks_add (a b : List Char) (i : Nat) :
    widthAbove (breaks a + (i + 1)) (a ++ b) = width a + widthAbove (i + 1) b := by
  induction a with
  | nil => rw [breaks, List.count_nil, Nat.zero_add, List.nil_append, width, Nat.zero_add]
  | cons c a ih =>
    rw [List.cons_append, ← Nat.add_assoc, widthAbove, width, breaks_cons, Nat.add_assoc (units c), ← ih]
    split
    · rw [Nat.add_assoc, Nat.add_comm 1, Nat.add_assoc]
    · rw [Nat.zero_add, Nat.add_assoc]

/-- The end of a text stands behind the lines above it and its own line. -/
theorem widthAbove_breaks (a b : List Char) :
    widthAbove (breaks a) (a ++ b) + width (lastLine a) = width a := by
  by_cases h : '\n' ∈ a
  · obtain ⟨x, y, rfl, hy⟩ := exists_append_cons h
    have hbreaks : breaks (x ++ '\n' :: y) = breaks x + (0 + 1) := by
      rw [breaks_append, breaks_cons, if_pos rfl, breaks_eq_zero.2 hy]
    rw [hbreaks, List.append_assoc, widthAbove_breaks_add, lastLine_append_cons x hy, width_append,
      List.cons_append, widthAbove, if_pos rfl, widthAbove_zero, width]
    omega
  · have hlast := lastLine_append_of_not_mem [] h
    rw [List.nil_append] at hlast
    rw [breaks_eq_zero.2 h, widthAbove_zero, hlast, Nat.zero_add]
    rfl

end Position

namespace Mappings
open Text Position
variable {m : Mappings} {s : Segment} {start stop newStop p q : Position} {a b d t : List Char}
  {i c : Nat}

/-- Where an edit moves a position, in integers. -/
def image (start stop newStop p : Position) : Int × Int :=
  if p ≤ start then p.coords
  else if p.line = stop.line then
    (newStop.line.toNat, (p.column.toNat : Int) - stop.column.toNat + newStop.column.toNat)
  else ((p.line.toNat : Int) - stop.line.toNat + newStop.line.toNat, p.column.toNat)

theorem toNat_sub_add {x y z : UInt32} (h : y ≤ x) :
    ((x - y + z).toNat : Int) = (x.toNat : Int) - y.toNat + z.toNat ↔
      (x.toNat : Int) - y.toNat + z.toNat < 2 ^ 32 := by
  have hle := UInt32.le_iff_toNat_le.1 h
  rw [UInt32.toNat_add, UInt32.toNat_sub_of_le _ _ h]
  have := x.toNat_lt
  have := z.toNat_lt
  omega

/-- What an edit can do with a position that it keeps. -/
theorem shift?_cases (h : shift? start stop newStop p = some q) :
    (p ≤ start ∧ q = p) ∨
      (¬ p ≤ start ∧ (stop.line ≤ p.line ∧ (p.line = stop.line → stop.column ≤ p.column)) ∧
        q = if p.line = stop.line then ⟨newStop.line, p.column - stop.column + newStop.column⟩
          else ⟨p.line - stop.line + newStop.line, p.column⟩) := by
  rw [shift?] at h
  split at h
  · next hp => exact .inl ⟨hp, (Option.some.inj h).symm⟩
  · next hp =>
    split at h
    · cases h
    · next hstop =>
      refine .inr ⟨hp, ?_, ?_⟩
      · rw [lt_iff] at hstop
        rw [UInt32.le_iff_toNat_le, UInt32.le_iff_toNat_le, ← UInt32.toNat_inj]
        omega
      · split at h
        · next heq => rw [if_pos heq, Option.some.inj h]
        · next heq => rw [if_neg heq, Option.some.inj h]

/-- A position is moved exactly where the exact line and column are words. -/
theorem exact_iff (h : shift? start stop newStop p = some q) :
    q.coords = image start stop newStop p ↔
      (image start stop newStop p).1 < 2 ^ 32 ∧ (image start stop newStop p).2 < 2 ^ 32 := by
  have hline := p.line.toNat_lt
  have hcolumn := p.column.toNat_lt
  have hnew := newStop.line.toNat_lt
  rw [Position.coords, image]
  obtain ⟨hp, rfl⟩ | ⟨hp, ⟨hle, hcol⟩, hq⟩ := shift?_cases h
  · rw [if_pos hp, Position.coords]
    simp only [true_iff]
    omega
  · rw [if_neg hp]
    split at hq
    · next hstop =>
      rw [if_pos hstop, hq, Prod.mk.injEq, toNat_sub_add (hcol hstop)]
      simp only [true_and]
      omega
    · next hstop =>
      rw [if_neg hstop, hq, Prod.mk.injEq, toNat_sub_add hle]
      simp only [and_true]
      omega

/-- An edit of `a ++ b ++ d` at `b` moves a position with room for the text `t` that is put there
exactly, and it takes no more room than that text. -/
theorem exact_of_room (hab : size (a ++ b) < 2 ^ 32) (hat : size (a ++ t) < 2 ^ 32)
    (hline : p.line.toNat + breaks t < 2 ^ 32)
    (hcolumn : p.column.toNat + widthAbove p.line.toNat (a ++ b ++ d) + width t < 2 ^ 32)
    (h : shift? (ofText a) (ofText (a ++ b)) (ofText (a ++ t)) p = some q) :
    q.coords = image (ofText a) (ofText (a ++ b)) (ofText (a ++ t)) p ∧
      q.line.toNat ≤ p.line.toNat + breaks t ∧
      q.column.toNat + widthAbove q.line.toNat (a ++ t ++ d) ≤
        p.column.toNat + widthAbove p.line.toNat (a ++ b ++ d) + width t := by
  have hstop := widthAbove_breaks (a ++ b) d
  have hnew := widthAbove_breaks (a ++ t) d
  have hbreaks := breaks_append a b
  have hbreaks' := breaks_append a t
  rw [width_append] at hstop hnew
  rw [exact_iff h, image]
  obtain ⟨hp, rfl⟩ | ⟨hp, ⟨hle, hcol⟩, hq⟩ := shift?_cases h
  · -- up to the start nothing is moved, and the lines above stay
    rw [if_pos hp]
    have ha : size a < 2 ^ 32 := by rw [size_append] at hab; omega
    have hqa : q.line.toNat ≤ breaks a := by
      rw [le_iff, line_ofText ha] at hp
      omega
    rw [List.append_assoc, List.append_assoc, widthAbove_append hqa, widthAbove_append hqa] at *
    refine ⟨?_, by omega, by omega⟩
    simp only [coords]
    omega
  rw [if_neg hp]
  split at hq
  · -- behind the replaced text, on its last line
    next heq =>
    have hcol := hcol heq
    rw [if_pos heq]
    rw [← UInt32.toNat_inj, line_ofText hab] at heq
    rw [heq] at hcolumn ⊢
    have hle := UInt32.le_iff_toNat_le.1 hcol
    have hsum := @toNat_sub_add _ _ (ofText (a ++ t)).column hcol
    rw [column_ofText hab] at hle
    rw [column_ofText hab, column_ofText hat] at hsum
    have hfits := hsum.2 (by omega)
    rw [column_ofText hab, column_ofText hat, line_ofText hat, hq, line_ofText hat]
    simp only
    exact ⟨by omega, by omega, by omega⟩
  · -- on a line below: what stands above it is the text up to the edit and what lies between
    next heq =>
    have hsum := @toNat_sub_add _ _ (ofText (a ++ t)).line hle
    rw [if_neg heq]
    rw [← UInt32.toNat_inj] at heq
    rw [UInt32.le_iff_toNat_le] at hle
    rw [line_ofText hab] at heq hle
    rw [line_ofText hab, line_ofText hat] at hsum
    obtain ⟨j, hj⟩ : ∃ j, p.line.toNat = breaks (a ++ b) + (j + 1) :=
      ⟨p.line.toNat - breaks (a ++ b) - 1, by omega⟩
    have hfits := hsum.2 (by omega)
    have hql : (p.line - (ofText (a ++ b)).line + (ofText (a ++ t)).line).toNat = breaks (a ++ t) + (j + 1) := by
      omega
    rw [line_ofText hab, line_ofText hat, hq]
    simp only
    rw [hql, widthAbove_breaks_add (a ++ t), hj, widthAbove_breaks_add (a ++ b), width_append, width_append]
    exact ⟨by omega, by omega, by omega⟩

end Mappings

namespace Position
open Text

/-- The position is the end of a text, without a line or a column lost. -/
def Ends (p : Position) (cs : List Char) : Prop :=
  p.line.toNat = breaks cs ∧ p.column.toNat = width (lastLine cs)

theorem ends_ofText {cs : List Char} (h : size cs < 2 ^ 32) : (ofText cs).Ends cs :=
  ⟨line_ofText h, column_ofText h⟩

end Position

namespace Edit
open Text Position Mappings
variable {cs : List Char} {e : Edit} {es done rest : List Edit} {m : Mappings}

/-- The position at which the replaced text starts. -/
def startIn (e : Edit) (cs : List Char) : Position :=
  ofOffset cs e.span.start

/-- The position at which the replaced text stops. -/
def stopIn (e : Edit) (cs : List Char) : Position :=
  ofOffset cs e.span.stop

/-- The position at which the text put in its place stops. -/
def newStopIn (e : Edit) (cs : List Char) : Position :=
  (e.startIn cs).advance e.text.toList

/-- Where an edit of the text moves a segment on a line. -/
def shiftIn? (e : Edit) (cs : List Char) (i : Nat) (s : Segment) : Option Position :=
  shift? (e.startIn cs) (e.stopIn cs) (e.newStopIn cs) ⟨.ofNat i, s.column⟩

/-- Where an edit of the text moves a segment on a line, in integers. -/
def imageIn (e : Edit) (cs : List Char) (i : Nat) (s : Segment) : Int × Int :=
  image (e.startIn cs) (e.stopIn cs) (e.newStopIn cs) ⟨.ofNat i, s.column⟩

/-- There is room for every segment of a map in words of 32 bits, with all the texts of some edits
put before it. -/
structure Room (m : Mappings) (cs : List Char) (es : List Edit) : Prop where
  size : Text.size cs + (es.map fun e => Text.size e.text.toList).sum < 2 ^ 32
  line : ∀ i s, m.At i s → i + (es.map fun e => breaks e.text.toList).sum < 2 ^ 32
  column : ∀ i s, m.At i s →
    s.column.toNat + widthAbove i cs + (es.map fun e => width e.text.toList).sum < 2 ^ 32

/-- An edit of the text moves every segment of a map exactly: the positions are those of the text, no
difference of lines is below zero, and no segment stands on a line that is not a word. -/
structure MovesExactly (e : Edit) (cs : List Char) (m : Mappings) : Prop where
  start : (e.startIn cs).Ends (before e.span.start cs)
  stop : (e.stopIn cs).Ends (before e.span.stop cs)
  newStop : (e.newStopIn cs).Ends (before e.span.start cs ++ e.text.toList)
  lines : (e.startIn cs).line ≤ (e.stopIn cs).line ∧ (e.startIn cs).line ≤ (e.newStopIn cs).line
  word : ∀ i s, m.At i s → i < 2 ^ 32
  moved : ∀ i s q, m.At i s → e.shiftIn? cs i s = some q →
    q.coords = e.imageIn cs i s

/-- The positions of an edit, by the texts that end there. -/
theorem positions_eq {a b d : List Char} (ha : size a = e.span.start)
    (hb : size a + size b = e.span.stop) :
    e.startIn (a ++ b ++ d) = ofText a ∧ e.stopIn (a ++ b ++ d) = ofText (a ++ b) ∧
      e.newStopIn (a ++ b ++ d) = ofText (a ++ e.text.toList) := by
  have hstart : e.startIn (a ++ b ++ d) = ofText a := by
    rw [startIn, ← ha, List.append_assoc, ofOffset_append]
  refine ⟨hstart, ?_, ?_⟩
  · rw [stopIn, ← hb, ← size_append, ofOffset_append]
  · rw [newStopIn, hstart, ofText_append]

/-- A segment with room for the text of an edit is moved exactly, and it takes no more room than that
text. -/
theorem moved_of_room {a b d : List Char} {i : Nat} {s : Segment} {q : Position}
    (ha : size a = e.span.start) (hb : size a + size b = e.span.stop)
    (hab : size (a ++ b) < 2 ^ 32) (hat : size (a ++ e.text.toList) < 2 ^ 32)
    (hline : i + breaks e.text.toList < 2 ^ 32)
    (hcolumn : s.column.toNat + widthAbove i (a ++ b ++ d) + width e.text.toList < 2 ^ 32)
    (h : e.shiftIn? (a ++ b ++ d) i s = some q) :
    q.coords = e.imageIn (a ++ b ++ d) i s ∧
      q.line.toNat ≤ i + breaks e.text.toList ∧
      q.column.toNat + widthAbove q.line.toNat (a ++ e.text.toList ++ d) ≤
        s.column.toNat + widthAbove i (a ++ b ++ d) + width e.text.toList := by
  obtain ⟨hstart, hstop, hnew⟩ := positions_eq (d := d) ha hb
  have hi : (UInt32.ofNat i).toNat = i := UInt32.toNat_ofNat_of_lt' (show i < 2 ^ 32 by omega)
  rw [shiftIn?, hstart, hstop, hnew] at h
  rw [imageIn, hstart, hstop, hnew]
  have hmoved := exact_of_room (d := d) hab hat (by rw [hi]; exact hline) (by rw [hi]; exact hcolumn) h
  rwa [hi] at hmoved

/-- One edit with room for its text is exact, and leaves room for the others. -/
theorem Room.applyTo (h : Room m cs (e :: es)) (he : Fits cs e) :
    MovesExactly e cs m ∧ Room (e.applyToMappings cs m) (e.applyTo cs) es := by
  obtain ⟨a, b, d, rfl, ha, hb⟩ := he.start.exists_append₃ he.stop he.le
  obtain ⟨hsize, hline, hcolumn⟩ := h
  simp only [List.map_cons, List.sum_cons, size_append] at hsize hline hcolumn
  obtain ⟨hstart, hstop, hnew⟩ := positions_eq (d := d) ha hb
  have hsa : Text.size a < 2 ^ 32 := by omega
  have hsab : Text.size (a ++ b) < 2 ^ 32 := by rw [size_append]; omega
  have hsat : Text.size (a ++ e.text.toList) < 2 ^ 32 := by rw [size_append]; omega
  have hmoved : ∀ i s q, m.At i s → e.shiftIn? (a ++ b ++ d) i s = some q → _ := fun i s q hs hq =>
    moved_of_room (d := d) ha hb hsab hsat (by have := hline i s hs; omega)
      (by have := hcolumn i s hs; omega) hq
  constructor
  · have hA : before e.span.start (a ++ b ++ d) = a := by rw [← ha, List.append_assoc, before_append]
    have hB : before e.span.stop (a ++ b ++ d) = a ++ b := by rw [← hb, ← size_append, before_append]
    have hla := line_ofText hsa
    have hlab := line_ofText hsab
    have hlat := line_ofText hsat
    rw [breaks_append] at hlab hlat
    refine ⟨?_, ?_, ?_, ?_, fun i s hs => by have := hline i s hs; omega, fun i s q hs hq => ?_⟩
    · rw [hstart, hA]
      exact ends_ofText hsa
    · rw [hstop, hB]
      exact ends_ofText hsab
    · rw [hnew, hA]
      exact ends_ofText hsat
    · rw [hstart, hstop, hnew, UInt32.le_iff_toNat_le, UInt32.le_iff_toNat_le]
      omega
    · exact (hmoved i s q hs hq).1
  · have happly : e.applyTo (a ++ b ++ d) = a ++ e.text.toList ++ d := applyTo_append₃ ha hb
    have hkept : ∀ i s, (e.applyToMappings (a ++ b ++ d) m).At i s →
        ∃ j t, m.At j t ∧ i ≤ j + breaks e.text.toList ∧
          s.column.toNat + widthAbove i (a ++ e.text.toList ++ d) ≤
            t.column.toNat + widthAbove j (a ++ b ++ d) + width e.text.toList := by
      intro i s hs
      obtain ⟨j, t, q, ht, hq, rfl, hqs⟩ := exists_shift?_of_at_applyEdit hs
      obtain ⟨-, hql, hqc⟩ := hmoved j t q ht hq
      exact ⟨j, t, ht, hql, hqs ▸ hqc⟩
    rw [happly]
    refine ⟨by simp only [size_append]; omega, fun i s hs => ?_, fun i s hs => ?_⟩
    · obtain ⟨j, t, ht, hle, -⟩ := hkept i s hs
      have := hline j t ht
      omega
    · obtain ⟨j, t, ht, -, hle⟩ := hkept i s hs
      have := hcolumn j t ht
      omega

/-- With room for the texts of all edits, each edit of a run is exact. -/
theorem Room.movesExactly (h : Room m cs (done ++ e :: rest)) (hfit : FitInTurn (done ++ e :: rest) cs) :
    MovesExactly e (applied done cs) (appliedMappings done cs m) := by
  induction done generalizing cs m with
  | nil => exact (h.applyTo hfit.1).1
  | cons x done ih => exact ih (h.applyTo hfit.1).2 hfit.2

theorem appliedMappings_append (done : List Edit) (e : Edit) (cs : List Char) (m : Mappings) :
    appliedMappings (done ++ [e]) cs m =
      e.applyToMappings (applied done cs) (appliedMappings done cs m) := by
  induction done generalizing cs m with
  | nil => rfl
  | cons x done ih => exact ih _ _

end Edit

namespace Mapped
open Edit Mappings Position

/-- What the calls of `applyEdit` in a splice compute. No difference is below zero, and a segment is
moved to the integers where it should be exactly if these fit a word. With room for the texts of all
edits each call is exact. -/
theorem exact_of_splice {document content : String} {map : SourceMap} {edits es : List Edit}
    {m : Mappings} (hes : check document content.toList edits = .ok es)
    (hm : Mappings.decode map.mappings = .ok m) :
    splice document ⟨content, some map⟩ edits =
        .ok ⟨.ofList (applied es content.toList),
          some { map with mappings := (appliedMappings es content.toList m).encode }⟩ ∧
      ∀ done e rest, es = done ++ e :: rest →
        let cs := applied done content.toList
        let n := appliedMappings done content.toList m
        appliedMappings (done ++ [e]) content.toList m =
          n.applyEdit (e.startIn cs) (e.stopIn cs) (e.newStopIn cs) ∧
        (∀ i s q, n.At i s → e.shiftIn? cs i s = some q →
          (¬ Position.mk (.ofNat i) s.column ≤ e.startIn cs → (e.stopIn cs).line ≤ .ofNat i ∧
            (.ofNat i = (e.stopIn cs).line → (e.stopIn cs).column ≤ s.column)) ∧
          (q.coords = e.imageIn cs i s ↔
            (e.imageIn cs i s).1 < 2 ^ 32 ∧ (e.imageIn cs i s).2 < 2 ^ 32)) ∧
        (Room m content.toList es → MovesExactly e cs n) := by
  refine ⟨splice_some_eq hes hm, ?_⟩
  rintro done e rest rfl cs n
  obtain ⟨hord, hfit, hd⟩ := check_eq_ok hes
  have hturn := (applied_eq_woven hd fun e he => hfit e (mem_ordered.1 (hord ▸ he))).1
  refine ⟨appliedMappings_append .., fun i s q _ hq => ⟨fun hp => ?_, exact_iff hq⟩, fun hroom => ?_⟩
  · obtain ⟨hle, -⟩ | ⟨-, hle, -⟩ := shift?_cases hq
    · exact absurd hle hp
    · exact hle
  · exact hroom.movesExactly hturn

theorem at_singleton {s t : Segment} {i : Nat} (h : (Mappings.mk [[s]]).At i t) : i = 0 ∧ t = s := by
  obtain ⟨segs, hi, ht⟩ := h
  cases i with
  | zero =>
    obtain rfl := Option.some.inj hi
    exact ⟨rfl, List.mem_singleton.1 ht⟩
  | succ i => cases hi

/-- Text is put in and taken away before a segment. Where the segment has room for it each call is
exact; from the last column of a word the first call brings it to the start of the line. -/
theorem exact_of_splice_columns :
    let edits : List Edit := [⟨⟨4, 4⟩, "xy"⟩, ⟨⟨0, 2⟩, ""⟩]
    let near : Mappings := ⟨[[⟨5, none⟩]]⟩
    let far : Mappings := ⟨[[⟨4294967295, none⟩]]⟩
    check "d" "abcdef".toList edits = .ok edits ∧
      Mappings.decode "K" = .ok near ∧ Mappings.decode "+/////H" = .ok far ∧
      Room near "abcdef".toList edits ∧
      (∀ done e rest, edits = done ++ e :: rest →
        MovesExactly e (applied done "abcdef".toList) (appliedMappings done "abcdef".toList near)) ∧
      Edit.shiftIn? ⟨⟨4, 4⟩, "xy"⟩ "abcdef".toList 0 ⟨4294967295, none⟩ = some ⟨0, 1⟩ ∧
      (⟨0, 1⟩ : Position).coords ≠ Edit.imageIn ⟨⟨4, 4⟩, "xy"⟩ "abcdef".toList 0 ⟨4294967295, none⟩ := by
  intro edits near far
  have hord : ordered edits = edits := by
    rw [ordered, List.mergeSort_of_pairwise (by decide)]
    rfl
  have hes : check "d" "abcdef".toList edits = .ok edits := by
    rw [check, hord]
    decide
  have hnear : Mappings.decode "K" = .ok near := by decide
  have hfar : Mappings.decode "+/////H" = .ok far := by decide
  have hroom : Room near "abcdef".toList edits := by
    refine ⟨by decide, fun i s hs => ?_, fun i s hs => ?_⟩ <;>
      obtain ⟨rfl, rfl⟩ := at_singleton hs <;> decide
  have hshift : Edit.shiftIn? ⟨⟨4, 4⟩, "xy"⟩ "abcdef".toList 0 ⟨4294967295, none⟩ = some ⟨0, 1⟩ := by decide
  obtain ⟨-, hcalls⟩ := @exact_of_splice _ _ { version := 3, mappings := "K" } _ _ _ hes hnear
  obtain ⟨-, hcalls'⟩ := @exact_of_splice _ _ { version := 3, mappings := "+/////H" } _ _ _ hes hfar
  refine ⟨hes, hnear, hfar, hroom, fun done e rest h => (hcalls done e rest h).2.2 hroom, hshift, fun h => ?_⟩
  obtain ⟨-, hmoved, -⟩ := hcalls' [] ⟨⟨4, 4⟩, "xy"⟩ [⟨⟨0, 2⟩, ""⟩] rfl
  have hfits := (hmoved 0 _ _ ⟨_, rfl, List.mem_singleton.2 rfl⟩ hshift).2.1 h
  exact absurd hfits (by decide)

end Mapped
end Relabel
