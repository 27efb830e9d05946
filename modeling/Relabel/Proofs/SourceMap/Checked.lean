import Relabel.Proofs.SourceMap.Coding

/-!
# Reading mappings with checks

A second reader of mappings keeps signed words of 64 bits and looks at each step that a machine could not
take: a shift by a whole word, a sum or a negation that leaves the word, a field that a segment does not
have. There it stops, and there is no text on which it does (`decode_never_stops`).

Two bounds carry this. The digits of an integer are added from the lowest bit on and the sign takes one bit
of the word, so every integer that is read has at most `2 ^ 62` (`bounds_of_decodeFrom`). And what is kept
from one segment to the next was looked at before it was kept, so it is a word of 32 bits
(`bounded_of_next`), and one more integer does not take it out of 64 bits.
-/

namespace Relabel.Mappings.Checked
open Vlq (valueOf? firstByte signed signed_of_lt signed_bounds bmod_of_bounds decodeFrom decodeFrom_of_value
  bounds_of_decodeFrom eq_nil_of_decodeFrom)
variable {α β : Type} {bits shift digit : Nat} {value v : Int} {cs raw : List Char}
  {run run' : Running} {column column' : Int} {s : Segment}

/-- Why reading stops: the mappings are refused, or a step cannot be taken. -/
inductive Stop where
  | refused (problem : MappingProblem)
  | overflow
  | noField
  deriving DecidableEq, Repr

/-- What the reader without checks says. -/
def accepted (x : Except MappingProblem α) : Except Stop α :=
  x.mapError .refused

/-- An integer, if a signed word of 64 bits holds it. -/
def fit (value : Int) : Except Stop Int :=
  if -2 ^ 63 ≤ value ∧ value < 2 ^ 63 then .ok value else .error .overflow

/-- The value bits of a digit from the bit `shift` on. Bits beyond the word are lost. -/
def shifted (digit shift : Nat) : Except Stop Int :=
  if shift < 64 then .ok (signed ((digit % 32) <<< shift)) else .error .overflow

/-- A word with the bits of one more digit. -/
def added (value : Int) (digit shift : Nat) : Except Stop Int := do
  fit (value + (← shifted digit shift))

/-- A field of a segment. -/
def field (fields : List Int) (i : Nat) : Except Stop Int :=
  match fields[i]? with
  | some value => .ok value
  | none => .error .noField

/-- The integer of a word whose lowest bit is the sign. -/
def ofWord (value : Int) : Except Stop Int :=
  if value % 2 = 1 then fit (-(value / 2)) else .ok (value / 2)

/-- The integers of a segment, with the value being read and its shift. -/
def integers (value : Int) (shift : Nat) : List Char → Except Stop (List Int)
  | [] => if shift = 0 then .ok [] else .error (.refused .truncated)
  | c :: cs =>
    match valueOf? c with
    | none => .error (.refused (.notBase64 (firstByte c)))
    | some digit => do
      let value ← added value digit shift
      if 32 ≤ digit then
        if 60 < shift + 5 then .error (.refused .overflow) else integers value (shift + 5) cs
      else do
        let first ← ofWord value
        let rest ← integers 0 0 cs
        return first :: rest

/-- The origin that some running values give, with these values. -/
def found (run : Running) (named : Bool) : Except MappingProblem (Option Origin × Running) := do
  return (some (← Mappings.origin run named), run)

/-- The origin that the fields behind the first one lead to, with the running values behind it. -/
def origin (run : Running) (raw : List Char) (fields : List Int) :
    Except Stop (Option Origin × Running) :=
  if fields.length = 1 then .ok (none, run)
  else if fields.length = 4 ∨ fields.length = 5 then do
    let source ← fit (run.source + (← field fields 1))
    let line ← fit (run.line + (← field fields 2))
    let column ← fit (run.column + (← field fields 3))
    let name ← if fields.length = 5 then do fit (run.name + (← field fields 4)) else .ok run.name
    accepted (found ⟨source, line, column, name⟩ (fields.length = 5))
  else .error (.refused (.fieldCount (.ofList raw) fields.length))

/-- One segment, with the running values and the column behind it. -/
def segment (run : Running) (column : Int) (raw : List Char) :
    Except Stop (Segment × Running × Int) := do
  let fields ← integers 0 0 raw
  let column ← fit (column + (← field fields 0))
  let (origin?, run) ← origin run raw fields
  let generated ← accepted (word column "generated column")
  return (⟨generated, origin?⟩, run, column)

/-- One segment after another on the line. -/
def segments (run : Running) (column : Int) :
    List (List Char) → Except Stop (List Segment × Running × Int)
  | [] => .ok ([], run, column)
  | raw :: rest => do
    let (first, run, column) ← segment run column raw
    let (others, run, column) ← segments run column rest
    return (first :: others, run, column)

/-- The texts of the segments of a line. -/
def pieces (line : List Char) : List (List Char) :=
  (line.splitOn ',').filter (! ·.isEmpty)

/-- One line after another. -/
def lines (run : Running) : List (List Char) → Except Stop (List (List Segment) × Running)
  | [] => .ok ([], run)
  | line :: rest => do
    let (first, run, _) ← segments run 0 (pieces line)
    let (others, run) ← lines run rest
    return (first :: others, run)

/-- The mappings that a text encodes. -/
def decode (text : String) : Except Stop Mappings := do
  let (lines, _) ← lines {} (text.toList.splitOn ';')
  return ⟨lines⟩

/-! ### Steps in a row -/

theorem ok_bind (a : α) (f : α → Except Stop β) : (Except.ok a >>= f) = f a := rfl

/-- What is done in two steps is done in both. -/
theorem exists_of_bind_eq_ok {ε : Type} {x : Except ε α} {f : α → Except ε β} {b : β}
    (h : x >>= f = .ok b) :
    ∃ a, x = .ok a ∧ f a = .ok b := by
  cases x with
  | error e => cases h
  | ok a => exact ⟨a, rfl, h⟩

theorem accepted_ok (a : α) : accepted (.ok a) = .ok a := rfl

theorem accepted_error (problem : MappingProblem) :
    accepted (.error problem : Except MappingProblem α) = .error (.refused problem) := rfl

theorem accepted_eq_ok_iff {x : Except MappingProblem α} {a : α} : accepted x = .ok a ↔ x = .ok a := by
  cases x <;> simp [accepted, Except.mapError]

theorem accepted_bind (x : Except MappingProblem α) (f : α → Except MappingProblem β) :
    accepted (x >>= f) = accepted x >>= fun a => accepted (f a) := by
  cases x <;> rfl

/-! ### Integers -/

theorem fit_of_bounds (h : -2 ^ 63 ≤ value ∧ value < 2 ^ 63) : fit value = .ok value := if_pos h

theorem bmod_mod_add (a b m : Nat) :
    (((a + b) % m : Nat) : Int).bmod m = (a + (b : Int).bmod m).bmod m := by
  rw [Int.natCast_emod, Int.emod_bmod, Int.natCast_add, Int.add_bmod_bmod]

/-- The bits of a digit leave room for those below them. -/
theorem signed_shiftLeft_bounds (hshift : shift ≤ 60) (n : Nat) :
    -2 ^ 63 ≤ signed (n <<< shift) ∧ signed (n <<< shift) + 2 ^ shift ≤ 2 ^ 63 := by
  have hmod : 0 < UInt64.size := by decide
  have hlow : -2 ^ 63 ≤ signed (n <<< shift) := Int.le_bmod hmod
  have hhigh : signed (n <<< shift) < 2 ^ 63 := Int.bmod_lt hmod
  have hpow : ((2 : Int) ^ shift) ∣ 2 ^ 63 := pow_dvd_pow 2 (by omega)
  have hsize : ((2 : Int) ^ shift) ∣ (UInt64.size : Int) := by
    rw [show (UInt64.size : Int) = 2 ^ 64 by decide]
    exact pow_dvd_pow 2 (by omega)
  have hshifted : ((2 : Int) ^ shift) ∣ ((n <<< shift : Nat) : Int) := by
    rw [Nat.shiftLeft_eq]
    push_cast
    exact Int.dvd_mul_left ..
  have hsigned : ((2 : Int) ^ shift) ∣ signed (n <<< shift) := by
    have hsub := hsize.trans (Int.dvd_bmod_sub_self (x := ((n <<< shift : Nat) : Int)))
    have := Int.dvd_add hsub hshifted
    rwa [Int.sub_add_cancel] at this
  have := Int.le_of_dvd (by omega) (Int.dvd_sub hpow hsigned)
  exact ⟨hlow, by omega⟩

/-- Adding the bits of a digit to lower ones does not leave the word. -/
theorem signed_add (hbits : bits < 2 ^ shift) (hshift : shift ≤ 60) (n : Nat) :
    (-2 ^ 63 ≤ bits + signed (n <<< shift) ∧ bits + signed (n <<< shift) < 2 ^ 63) ∧
      bits + signed (n <<< shift) = signed ((bits + n <<< shift) % UInt64.size) := by
  obtain ⟨hlow, hhigh⟩ := signed_shiftLeft_bounds hshift n
  have hbits' : (bits : Int) < 2 ^ shift := by exact_mod_cast hbits
  have hbounds : -2 ^ 63 ≤ bits + signed (n <<< shift) ∧ bits + signed (n <<< shift) < 2 ^ 63 := by
    omega
  refine ⟨hbounds, ?_⟩
  exact (bmod_of_bounds hbounds).symm.trans (bmod_mod_add bits (n <<< shift) UInt64.size).symm

theorem add_shiftLeft_lt (hbits : bits < 2 ^ shift) (n : Nat) :
    bits + (n % 32) <<< shift < 2 ^ (shift + 5) := by
  have hdigit : n % 32 + 1 ≤ 32 := by omega
  calc bits + (n % 32) <<< shift
    _ < 2 ^ shift + (n % 32) * 2 ^ shift := by
      rw [Nat.shiftLeft_eq]
      omega
    _ = (n % 32 + 1) * 2 ^ shift := by ring
    _ ≤ 32 * 2 ^ shift := Nat.mul_le_mul_right _ hdigit
    _ = 2 ^ (shift + 5) := by ring

/-- A word is odd exactly if its signed integer is. -/
theorem signed_emod_two (n : Nat) : signed n % 2 = 1 ↔ n % 2 = 1 := by
  have hdvd : (2 : Int) ∣ signed n - n :=
    Int.dvd_trans (by decide) (Int.dvd_bmod_sub_self (m := UInt64.size))
  omega

/-- The last digit of an integer does not stop the reader. -/
theorem ofWord_signed (n : Nat) : ofWord (signed n) = .ok (Vlq.ofWord n) := by
  have h := signed_bounds n
  simp only [ofWord, Vlq.ofWord, signed_emod_two]
  split
  · exact fit_of_bounds (by omega)
  · rfl

theorem added_eq (hbits : bits < 2 ^ shift) (hshift : shift ≤ 60) (digit : Nat) :
    added bits digit shift = .ok (signed ((bits + (digit % 32) <<< shift) % UInt64.size)) := by
  obtain ⟨hbounds, hsum⟩ := signed_add hbits hshift (digit % 32)
  rw [added, shifted, if_pos (by omega), ok_bind, fit_of_bounds hbounds, hsum]

theorem integers_of_value {c : Char} (hc : valueOf? c = some digit) (cs : List Char) :
    integers value shift (c :: cs) = do
      let value ← added value digit shift
      if 32 ≤ digit then
        if 60 < shift + 5 then .error (.refused .overflow) else integers value (shift + 5) cs
      else do
        let first ← ofWord value
        let rest ← integers 0 0 cs
        return first :: rest := by
  rw [integers, hc]

/-- The integers of a segment are read without a stop. -/
theorem integers_eq (hbits : bits < 2 ^ shift) (hshift : shift ≤ 60) :
    integers bits shift cs = accepted (decodeFrom bits shift cs) := by
  induction cs generalizing bits shift with
  | nil =>
    rw [integers, decodeFrom]
    split <;> rfl
  | cons c cs ih =>
    cases hc : valueOf? c with
    | none =>
      rw [integers, decodeFrom, hc]
      rfl
    | some digit =>
      have hlt := add_shiftLeft_lt hbits digit
      rw [integers_of_value hc, decodeFrom_of_value hc, added_eq hbits hshift, ok_bind]
      by_cases hmore : 32 ≤ digit
      · rw [if_pos hmore, if_pos hmore]
        by_cases hlong : 60 < shift + 5
        · rw [if_pos hlong, if_pos hlong]
          rfl
        · have hpow : 2 ^ (shift + 5) ≤ 2 ^ 60 := Nat.pow_le_pow_right (by decide) (by omega)
          have hword : bits + (digit % 32) <<< shift < UInt64.size := by
            unfold UInt64.size
            omega
          rw [if_neg hlong, if_neg hlong, Nat.mod_eq_of_lt hword, signed_of_lt (by omega)]
          exact ih hlt (by omega)
      · rw [if_neg hmore, if_neg hmore, ofWord_signed, ok_bind, accepted_bind,
          ← @ih 0 0 (by decide) (by decide)]
        rfl

/-! ### Segments -/

/-- The origin that the fields behind the first one lead to, without checks. -/
def originOf (run : Running) (raw : List Char) :
    List Int → Except MappingProblem (Option Origin × Running)
  | [_] => .ok (none, run)
  | [_, s, l, c] => found ⟨run.source + s, run.line + l, run.column + c, run.name⟩ false
  | [_, s, l, c, n] => found ⟨run.source + s, run.line + l, run.column + c, run.name + n⟩ true
  | fields => .error (.fieldCount (.ofList raw) fields.length)

/-- One segment, with the running values and the column behind it, without checks. -/
def next (run : Running) (column : Int) (raw : List Char) :
    Except MappingProblem (Segment × Running × Int) := do
  let fields ← Vlq.decode raw
  let (origin?, run) ← originOf run raw fields
  let generated ← word (column + fields.headD 0) "generated column"
  return (⟨generated, origin?⟩, run, column + fields.headD 0)

/-- The reader of mappings goes from segment to segment. -/
theorem decodeSegments_raw (rest : List (List Char)) :
    decodeSegments run column (raw :: rest) = do
      let (first, run, column) ← next run column raw
      let (others, run) ← decodeSegments run column rest
      return (first :: others, run) := by
  rw [decodeSegments, next]
  cases Vlq.decode raw with
  | error e => rfl
  | ok fields =>
    rcases fields with _ | ⟨a, _ | ⟨s, _ | ⟨l, _ | ⟨c, _ | ⟨n, _ | ⟨x, fields⟩⟩⟩⟩⟩⟩
    · rfl
    · cases h : word (column + a) "generated column" <;>
        simp [originOf, h, bind, Except.bind, pure, Except.pure]
    · rfl
    · rfl
    · cases h : Mappings.origin ⟨run.source + s, run.line + l, run.column + c, run.name⟩ false <;>
        cases hword : word (column + a) "generated column" <;>
          simp [originOf, found, h, hword, bind, Except.bind, pure, Except.pure]
    · cases h : Mappings.origin ⟨run.source + s, run.line + l, run.column + c, run.name + n⟩ true <;>
        cases hword : word (column + a) "generated column" <;>
          simp [originOf, found, h, hword, bind, Except.bind, pure, Except.pure]
    · rfl

/-! ### Steps without a stop -/

theorem fit_add {a : Int} (ha : 0 ≤ a ∧ a < 2 ^ 32) (hv : -2 ^ 62 ≤ v ∧ v ≤ 2 ^ 62) :
    fit (a + v) = .ok (a + v) :=
  fit_of_bounds (by omega)

/-- Small differences lead from small values to an origin without a stop. -/
theorem origin_eq (h : run.Bounded) {fields : List Int} (hfields : ∀ v ∈ fields, -2 ^ 62 ≤ v ∧ v ≤ 2 ^ 62) :
    origin run raw fields = accepted (originOf run raw fields) := by
  rcases fields with _ | ⟨a, _ | ⟨s, _ | ⟨l, _ | ⟨c, _ | ⟨n, _ | ⟨x, fields⟩⟩⟩⟩⟩⟩
  · rfl
  · rfl
  · rfl
  · rfl
  · simp only [List.forall_mem_cons] at hfields
    obtain ⟨-, hs, hl, hc, -⟩ := hfields
    simp [origin, originOf, field, fit_add h.source hs, fit_add h.line hl, fit_add h.column hc, ok_bind]
  · simp only [List.forall_mem_cons] at hfields
    obtain ⟨-, hs, hl, hc, hn, -⟩ := hfields
    simp [origin, originOf, field, fit_add h.source hs, fit_add h.line hl, fit_add h.column hc,
      fit_add h.name hn, ok_bind]
  · simp [origin, originOf, accepted_error]

theorem segment_eq (h : run.Bounded) (hc : 0 ≤ column ∧ column < 2 ^ 32) (hraw : raw ≠ []) :
    segment run column raw = accepted (next run column raw) := by
  have hintegers : integers 0 0 raw = accepted (Vlq.decode raw) :=
    @integers_eq 0 0 raw (by decide) (by decide)
  rw [segment, next, hintegers]
  cases hfields : Vlq.decode raw with
  | error e => rfl
  | ok fields =>
    have hbounds := bounds_of_decodeFrom hfields
    cases fields with
    | nil => exact absurd (eq_nil_of_decodeFrom hfields).1 hraw
    | cons a fields =>
      have hfirst := fit_add hc (hbounds a (List.mem_cons_self ..))
      have hfield : field (a :: fields) 0 = .ok a := rfl
      rw [accepted_ok, ok_bind, hfield, ok_bind, hfirst, ok_bind, origin_eq h hbounds]
      cases horigin : originOf run raw (a :: fields) <;>
        cases hword : word (column + a) "generated column" <;>
          simp [horigin, hword, accepted, bind, Except.bind, pure, Except.pure, Except.mapError]

/-! ### What is kept -/

theorem bounds_of_word {w : UInt32} {name : String} (h : word value name = .ok w) :
    0 ≤ value ∧ value < 2 ^ 32 := by
  rw [word] at h
  split at h
  · assumption
  · cases h

/-- The running values that give an origin are words of 32 bits, the name only if it was read. -/
theorem bounded_of_found {origin? : Option Origin} {named : Bool}
    (h : found run named = .ok (origin?, run'))
    (hname : named = false → 0 ≤ run.name ∧ run.name < 2 ^ 32) : run'.Bounded := by
  obtain ⟨o, horigin, hrun⟩ := exists_of_bind_eq_ok h
  obtain rfl := (Prod.mk.inj (Except.ok.inj hrun)).2
  have hwords : ((if named then (word run.name "name index").map some else .ok none) >>= fun name => do
      let source ← word run.source "source index"
      let line ← word run.line "original line"
      let column ← word run.column "original column"
      return (⟨source, line, column, name⟩ : Origin)) = .ok o := by
    cases named <;> exact horigin
  obtain ⟨name?, hname?, hwords⟩ := exists_of_bind_eq_ok hwords
  obtain ⟨source, hsource, hwords⟩ := exists_of_bind_eq_ok hwords
  obtain ⟨line, hline, hwords⟩ := exists_of_bind_eq_ok hwords
  obtain ⟨column, hcolumn, -⟩ := exists_of_bind_eq_ok hwords
  refine ⟨bounds_of_word hsource, bounds_of_word hline, bounds_of_word hcolumn, ?_⟩
  cases named with
  | false => exact hname rfl
  | true =>
    obtain ⟨w, hw, -⟩ := exists_of_bind_eq_ok (f := fun w => .ok (some w)) hname?
    exact bounds_of_word hw

theorem bounded_of_originOf {origin? : Option Origin} {fields : List Int} (h : run.Bounded)
    (horigin : originOf run raw fields = .ok (origin?, run')) : run'.Bounded := by
  rw [originOf.eq_def] at horigin
  split at horigin
  · cases horigin
    exact h
  · exact bounded_of_found horigin fun _ => h.name
  · exact bounded_of_found horigin fun hnot => Bool.noConfusion hnot
  · cases horigin

theorem bounded_of_next (h : run.Bounded) (hnext : next run column raw = .ok (s, run', column')) :
    run'.Bounded ∧ 0 ≤ column' ∧ column' < 2 ^ 32 := by
  obtain ⟨fields, -, hnext⟩ := exists_of_bind_eq_ok hnext
  obtain ⟨⟨origin?, after⟩, horigin, hnext⟩ := exists_of_bind_eq_ok hnext
  obtain ⟨generated, hword, hnext⟩ := exists_of_bind_eq_ok hnext
  cases hnext
  exact ⟨bounded_of_originOf h horigin, bounds_of_word hword⟩

/-- Behind a segment that was accepted the running values and the column are words of 32 bits. -/
theorem bounded_of_segment (h : run.Bounded) (hc : 0 ≤ column ∧ column < 2 ^ 32)
    (hsegment : segment run column raw = .ok (s, run', column')) :
    run'.Bounded ∧ 0 ≤ column' ∧ column' < 2 ^ 32 := by
  by_cases hraw : raw = []
  · -- there is no first field
    rw [hraw] at hsegment
    cases hsegment
  · rw [segment_eq h hc hraw, accepted_eq_ok_iff] at hsegment
    exact bounded_of_next h hsegment

theorem bounded_of_segments {raws : List (List Char)} {ss : List Segment} (h : run.Bounded)
    (hc : 0 ≤ column ∧ column < 2 ^ 32) (hsegments : segments run column raws = .ok (ss, run', column')) :
    run'.Bounded ∧ 0 ≤ column' ∧ column' < 2 ^ 32 := by
  induction raws generalizing run column ss with
  | nil =>
    cases hsegments
    exact ⟨h, hc⟩
  | cons raw raws ih =>
    obtain ⟨⟨s, after, behind⟩, hfirst, hrest⟩ := exists_of_bind_eq_ok hsegments
    obtain ⟨⟨ss, last, final⟩, hothers, heq⟩ := exists_of_bind_eq_ok hrest
    cases heq
    obtain ⟨hafter, hbehind⟩ := bounded_of_segment h hc hfirst
    exact ih hafter hbehind hothers

theorem bounded_of_lines {texts : List (List Char)} {ls : List (List Segment)} (h : run.Bounded)
    (hlines : lines run texts = .ok (ls, run')) : run'.Bounded := by
  induction texts generalizing run ls with
  | nil =>
    cases hlines
    exact h
  | cons line texts ih =>
    obtain ⟨⟨ss, after, behind⟩, hfirst, hrest⟩ := exists_of_bind_eq_ok hlines
    obtain ⟨⟨ls, last⟩, hothers, heq⟩ := exists_of_bind_eq_ok hrest
    cases heq
    exact ih (bounded_of_segments h (by decide) hfirst).1 hothers

/-! ### Lines -/

theorem pieces_ne_nil {line : List Char} : ∀ raw ∈ pieces line, raw ≠ [] := by
  intro raw hraw
  simpa using (List.mem_filter.1 hraw).2

/-- The segments of a line are read without a stop. -/
theorem segments_eq {raws : List (List Char)} (h : run.Bounded) (hc : 0 ≤ column ∧ column < 2 ^ 32)
    (hraws : ∀ raw ∈ raws, raw ≠ []) :
    (segments run column raws).map (fun r => (r.1, r.2.1)) = accepted (decodeSegments run column raws) := by
  induction raws generalizing run column with
  | nil => rfl
  | cons raw raws ih =>
    obtain ⟨hraw, hrest⟩ := List.forall_mem_cons.1 hraws
    rw [decodeSegments_raw, segments, segment_eq h hc hraw, accepted_bind]
    cases hnext : next run column raw with
    | error e => rfl
    | ok result =>
      obtain ⟨s, after, behind⟩ := result
      obtain ⟨hafter, hbehind⟩ := bounded_of_next h hnext
      have hothers := ih hafter hbehind hrest
      rw [accepted_ok, ok_bind, ok_bind]
      dsimp only
      rw [accepted_bind, ← hothers]
      cases segments after behind raws <;> rfl

theorem lines_eq {texts : List (List Char)} (h : run.Bounded) :
    (lines run texts).map Prod.fst = accepted (decodeLines run texts) := by
  induction texts generalizing run with
  | nil => rfl
  | cons line texts ih =>
    have hline : (segments run 0 (pieces line)).map (fun r => (r.1, r.2.1)) =
        accepted (decodeSegments run 0 (pieces line)) := segments_eq h (by decide) pieces_ne_nil
    rw [lines, decodeLines, ← pieces, accepted_bind, ← hline]
    cases hsegments : segments run 0 (pieces line) with
    | error e => rfl
    | ok result =>
      obtain ⟨ss, after, behind⟩ := result
      have hothers := ih (bounded_of_segments h (by decide) hsegments).1
      show (lines after texts >>= fun r => .ok (ss :: r.1, r.2)).map Prod.fst =
        accepted (decodeLines after texts >>= fun ls => .ok (ss :: ls))
      rw [accepted_bind, ← hothers]
      cases lines after texts <;> rfl

theorem decode_eq (text : String) : decode text = accepted (Mappings.decode text) := by
  have hlines : (lines {} (text.toList.splitOn ';')).map Prod.fst =
      accepted (decodeLines {} (text.toList.splitOn ';')) := lines_eq bounded_zero
  have hmap : accepted (Mappings.decode text) =
      (accepted (decodeLines {} (text.toList.splitOn ';'))).map Mappings.mk := by
    rw [Mappings.decode]
    cases decodeLines {} (text.toList.splitOn ';') <;> rfl
  rw [hmap, ← hlines, decode]
  cases lines {} (text.toList.splitOn ';') <;> rfl

/-- The running values and the column with which reading a text stands behind some segments of a line, all
of them and all lines before accepted. -/
def Kept (text : String) (run : Running) (column : Int) : Prop :=
  ∃ above line below read rest,
    text.toList.splitOn ';' = above ++ line :: below ∧ pieces line = read ++ rest ∧
    ∃ ls start ss, lines {} above = .ok (ls, start) ∧ segments start 0 read = .ok (ss, run, column)

theorem bounded_of_kept {text : String} (h : Kept text run column) :
    run.Bounded ∧ 0 ≤ column ∧ column < 2 ^ 32 := by
  obtain ⟨above, line, below, read, rest, -, -, ls, start, ss, hlines, hsegments⟩ := h
  exact bounded_of_segments (bounded_of_lines bounded_zero hlines) (by decide) hsegments

/-- On no text a check stops the reader: what it answers, an error of the text or mappings, is what the
reader without checks answers. A segment that is not empty has a first field, all its integers are read
within the word, and behind a segment that was accepted everything that is kept is a word of 32 bits. -/
theorem decode_never_stops :
    (∀ text : String, decode text = accepted (Mappings.decode text)) ∧
    (∀ cs : List Char, integers 0 0 cs = accepted (Vlq.decode cs)) ∧
    (∀ cs values, cs ≠ [] → Vlq.decode cs = .ok values →
      values ≠ [] ∧ ∀ v ∈ values, -2 ^ 62 ≤ v ∧ v ≤ 2 ^ 62) ∧
    ∀ text run column, Kept text run column → run.Bounded ∧ 0 ≤ column ∧ column < 2 ^ 32 := by
  refine ⟨decode_eq, fun cs => ?_, fun cs values hcs h => ⟨?_, bounds_of_decodeFrom h⟩, ?_⟩
  · exact @integers_eq 0 0 cs (by decide) (by decide)
  · rintro rfl
    exact hcs (eq_nil_of_decodeFrom h).1
  · exact fun text run column => bounded_of_kept

/-- The greatest column there is, and behind it the least integer that a segment can have. -/
theorem decode_never_stops_extremes :
    let text := "+/////H,ggggggggggggI"
    decode text = .error (.refused (.outOfRange "generated column")) ∧
      Kept text {} 4294967295 ∧ (0 : Int) ≤ 4294967295 ∧ (4294967295 : Int) < 2 ^ 32 ∧
      "ggggggggggggI".toList ≠ [] ∧ Vlq.decode "ggggggggggggI".toList = .ok [-2 ^ 62] ∧
      ∀ v ∈ [(-2 ^ 62 : Int)], -2 ^ 62 ≤ v ∧ v ≤ 2 ^ 62 := by
  intro text
  obtain ⟨hdecode, -, hvalues, hkept⟩ := decode_never_stops
  have hfirst : Kept text {} 4294967295 :=
    ⟨[], text.toList, [], ["+/////H".toList], ["ggggggggggggI".toList], by decide, by decide, [], {},
      [⟨4294967295, none⟩], rfl, by decide +kernel⟩
  have hne : "ggggggggggggI".toList ≠ [] := by decide
  have hread : Vlq.decode "ggggggggggggI".toList = .ok [-2 ^ 62] := by decide +kernel
  have hrefused : Mappings.decode text = .error (.outOfRange "generated column") := by decide +kernel
  obtain ⟨-, hlow, hhigh⟩ := hkept text {} _ hfirst
  refine ⟨?_, hfirst, hlow, hhigh, hne, hread, (hvalues _ _ hne hread).2⟩
  rw [hdecode, hrefused]
  rfl

end Relabel.Mappings.Checked
