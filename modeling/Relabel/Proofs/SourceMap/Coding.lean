import Relabel.Proofs.SourceMap.Vlq
import Relabel.SourceMap.Mappings

/-!
# Reading back mappings

A segment is written as the differences of its values to those before it (`fieldsOf`), and reading
adds them up again. Writer and reader run over the same `Running` values, so each of the three
layers — segment, line, text — is read back from what was written for it, and mappings with one line
at least are read back whole (`decode_encode`). All that is read has a line, so an encoding is the
normal form of every text that means the same.
-/

namespace Relabel.Mappings
variable {run run' : Running} {column : Int} {s : Segment}

/-- Values that the differences of words never leave by much. -/
structure Running.Bounded (run : Running) : Prop where
  source : 0 ≤ run.source ∧ run.source < 2 ^ 32
  line : 0 ≤ run.line ∧ run.line < 2 ^ 32
  column : 0 ≤ run.column ∧ run.column < 2 ^ 32
  name : 0 ≤ run.name ∧ run.name < 2 ^ 32

theorem toNat_bounds (w : UInt32) : (0 : Int) ≤ w.toNat ∧ (w.toNat : Int) < 2 ^ 32 := by
  have := w.toNat_lt
  omega

/-- A word comes through the range check. -/
theorem word_toNat (w : UInt32) (field : String) : word w.toNat field = .ok w := by
  have h := w.toNat_lt
  rw [word, if_pos ⟨by omega, by simp only [UInt32.size]; omega⟩, Int.toNat_natCast,
    UInt32.ofNat_toNat]

/-- The running values after an origin. -/
def Running.after (run : Running) (o : Origin) : Running :=
  ⟨o.source.toNat, o.line.toNat, o.column.toNat, (o.name.map (·.toNat)).getD run.name.toNat⟩

/-- The differences that a segment is written as. -/
def fieldsOf (run : Running) (column : Int) (s : Segment) : List Int :=
  (s.column.toNat - column) ::
    match s.origin with
    | none => []
    | some o =>
      [o.source.toNat - run.source, o.line.toNat - run.line, o.column.toNat - run.column]
        ++ (o.name.map fun n => (n.toNat : Int) - run.name).toList

/-- The running values after a segment. -/
def Running.afterSegment (run : Running) (s : Segment) : Running :=
  match s.origin with
  | none => run
  | some o => run.after o

theorem Running.Bounded.after (h : run.Bounded) (o : Origin) : (run.after o).Bounded := by
  refine ⟨toNat_bounds _, toNat_bounds _, toNat_bounds _, ?_⟩
  cases ho : o.name with
  | none =>
    have := h.name
    simp only [Running.after, ho, Option.map_none, Option.getD_none]
    omega
  | some n =>
    simpa only [Running.after, ho, Option.map_some, Option.getD_some] using toNat_bounds n

theorem Running.Bounded.afterSegment (h : run.Bounded) (s : Segment) :
    (run.afterSegment s).Bounded := by
  unfold Running.afterSegment
  split
  · exact h
  · exact h.after _

theorem encodeSegment_eq (h : run.Bounded) (column : Int) (s : Segment) :
    encodeSegment run column s =
      ((fieldsOf run column s).flatMap Vlq.encode, run.afterSegment s) := by
  obtain ⟨c, o⟩ := s
  cases o with
  | none => simp [encodeSegment, fieldsOf, Running.afterSegment]
  | some o =>
    obtain ⟨src, line, col, n⟩ := o
    have hname : ((run.name.toNat : Nat) : Int) = run.name := Int.toNat_of_nonneg h.name.1
    cases n with
    | none => simp [encodeSegment, fieldsOf, Running.afterSegment, Running.after, hname]
    | some n => simp [encodeSegment, fieldsOf, Running.afterSegment, Running.after]

theorem fieldsOf_small (h : run.Bounded) (hc : 0 ≤ column ∧ column < 2 ^ 32) (s : Segment) :
    ∀ v ∈ fieldsOf run column s, v.natAbs < 2 ^ 62 := by
  obtain ⟨c, o⟩ := s
  have hcol := toNat_bounds c
  intro v hv
  cases o with
  | none =>
    simp only [fieldsOf, List.mem_singleton] at hv
    omega
  | some o =>
    have h1 := h.source
    have h2 := h.line
    have h3 := h.column
    have h4 := h.name
    have o1 := toNat_bounds o.source
    have o2 := toNat_bounds o.line
    have o3 := toNat_bounds o.column
    simp only [fieldsOf, List.mem_cons, List.mem_append, Option.mem_toList,
      Option.map_eq_some_iff, List.not_mem_nil, or_false] at hv
    rcases hv with rfl | (rfl | rfl | rfl) | ⟨n, -, rfl⟩
    · omega
    · omega
    · omega
    · omega
    · have o4 := toNat_bounds n
      omega

/-- An origin comes through the range checks. -/
theorem origin_after (run : Running) (o : Origin) :
    origin (run.after o) o.name.isSome = .ok o := by
  have hs : word (run.after o).source "source index" = .ok o.source := word_toNat _ _
  have hl : word (run.after o).line "original line" = .ok o.line := word_toNat _ _
  have hc : word (run.after o).column "original column" = .ok o.column := word_toNat _ _
  obtain ⟨src, line, col, n⟩ := o
  cases n with
  | none =>
    rw [origin, hs, hl, hc]
    rfl
  | some n =>
    have hn : word (run.after ⟨src, line, col, some n⟩).name "name index" = .ok n := word_toNat _ _
    rw [origin, hs, hl, hc, hn]
    rfl

/-- A segment that was written is read back, and reading goes on with the same values. -/
theorem decodeSegments_cons (h : run.Bounded) (hc : 0 ≤ column ∧ column < 2 ^ 32) (s : Segment)
    (rest : List (List Char)) :
    decodeSegments run column ((encodeSegment run column s).1 :: rest) = do
      let (segments, run') ← decodeSegments (run.afterSegment s) s.column.toNat rest
      return (s :: segments, run') := by
  rw [encodeSegment_eq h, decodeSegments, Vlq.decode_flatMap_encode (fieldsOf_small h hc s)]
  obtain ⟨c, o⟩ := s
  have hcol : column + (c.toNat - column) = c.toNat := by omega
  cases o with
  | none =>
    simp only [fieldsOf, bind, Except.bind, pure, Except.pure, List.headD_cons, hcol, word_toNat,
      Running.afterSegment]
  | some o =>
    have ho := origin_after run o
    obtain ⟨src, line, col, n⟩ := o
    have h1 : run.source + (src.toNat - run.source) = src.toNat := by omega
    have h2 : run.line + (line.toNat - run.line) = line.toNat := by omega
    have h3 : run.column + (col.toNat - run.column) = col.toNat := by omega
    cases n with
    | none =>
      have h4 : run.name = run.name.toNat := (Int.toNat_of_nonneg h.name.1).symm
      simp only [Running.after, Option.map_none, Option.getD_none, ← h4, Option.isSome_none] at ho
      simp only [fieldsOf, bind, Except.bind, pure, Except.pure, List.headD_cons, hcol, h1, h2, h3,
        word_toNat, Running.afterSegment, Running.after, Option.map_none, Option.toList_none,
        List.append_nil, ho, Option.getD_none, ← h4]
    | some n =>
      have h4 : run.name + (n.toNat - run.name) = n.toNat := by omega
      simp only [Running.after, Option.map_some, Option.getD_some, Option.isSome_some] at ho
      simp only [fieldsOf, bind, Except.bind, pure, Except.pure, List.headD_cons, hcol, h1, h2, h3,
        h4, word_toNat, Running.afterSegment, Running.after, Option.map_some, Option.toList_some,
        List.cons_append, List.nil_append, ho, Option.getD_some]

/-- The running values after the segments of a line. -/
def Running.afterLine (run : Running) (line : List Segment) : Running :=
  line.foldl Running.afterSegment run

theorem Running.Bounded.afterLine (h : run.Bounded) (line : List Segment) :
    (run.afterLine line).Bounded := by
  induction line generalizing run with
  | nil => exact h
  | cons s line ih => exact ih (h.afterSegment s)

theorem snd_encodeSegments (h : run.Bounded) (column : Int) (line : List Segment) :
    (encodeSegments run column line).2 = run.afterLine line := by
  induction line generalizing run column with
  | nil => rfl
  | cons s line ih =>
    simp only [encodeSegments, encodeSegment_eq h]
    exact ih (h.afterSegment s) _

/-- A line that was written is read back. -/
theorem decodeSegments_encodeSegments (h : run.Bounded) (hc : 0 ≤ column ∧ column < 2 ^ 32)
    (line : List Segment) :
    decodeSegments run column (encodeSegments run column line).1 = .ok (line, run.afterLine line) := by
  induction line generalizing run column with
  | nil => rfl
  | cons s line ih =>
    have hrun : (encodeSegment run column s).2 = run.afterSegment s := by rw [encodeSegment_eq h]
    simp only [encodeSegments]
    rw [decodeSegments_cons h hc, hrun, ih (h.afterSegment s) (toNat_bounds s.column)]
    rfl

/-! ### Separators -/

theorem encodeSegment_ne_nil (h : run.Bounded) (column : Int) (s : Segment) :
    (encodeSegment run column s).1 ≠ [] := by
  rw [encodeSegment_eq h, fieldsOf, List.flatMap_cons]
  exact List.append_ne_nil_of_left_ne_nil (Vlq.encode_ne_nil _) _

theorem encodeSegments_separators (h : run.Bounded) (column : Int) (line : List Segment) :
    ∀ text ∈ (encodeSegments run column line).1, text ≠ [] ∧ ∀ c ∈ text, c ≠ ',' ∧ c ≠ ';' := by
  induction line generalizing run column with
  | nil => intro text ht; exact nomatch ht
  | cons s line ih =>
    intro text ht
    simp only [encodeSegments, encodeSegment_eq h, List.mem_cons] at ht
    rcases ht with rfl | ht
    · refine ⟨?_, fun c hc => ?_⟩
      · have := encodeSegment_ne_nil h column s
        rwa [encodeSegment_eq h] at this
      · obtain ⟨v, -, hc⟩ := List.mem_flatMap.1 hc
        exact Vlq.encode_separators v c hc
    · exact ih (h.afterSegment s) _ text ht

/-- The texts of the segments come out of the text of their line. -/
theorem segments_of_line {texts : List (List Char)} (h : ∀ text ∈ texts, text ≠ [] ∧ ',' ∉ text) :
    (([','].intercalate texts).splitOn ',').filter (! ·.isEmpty) = texts := by
  by_cases hn : texts = []
  · rw [hn]
    rfl
  · rw [List.splitOn_intercalate ',' (fun l hl => (h l hl).2) hn, List.filter_eq_self]
    intro l hl
    simpa using (h l hl).1

theorem mem_intercalate {α : Type} {sep x : α} : ∀ {texts : List (List α)},
    x ∈ [sep].intercalate texts → x = sep ∨ ∃ text ∈ texts, x ∈ text
  | [], h => by simp [List.intercalate] at h
  | [t], h => .inr ⟨t, List.mem_cons_self .., by simpa [List.intercalate] using h⟩
  | t :: u :: texts, h => by
    rw [List.intercalate_cons_cons, List.mem_append, List.mem_append, List.mem_singleton] at h
    rcases h with (h | h) | h
    · exact .inr ⟨t, List.mem_cons_self .., h⟩
    · exact .inl h
    · rcases mem_intercalate h with h | ⟨text, ht, h⟩
      · exact .inl h
      · exact .inr ⟨text, List.mem_cons_of_mem t ht, h⟩

theorem encodeLines_separators (h : run.Bounded) (lines : List (List Segment)) :
    ∀ text ∈ encodeLines run lines, ';' ∉ text := by
  induction lines generalizing run with
  | nil => intro text ht; exact nomatch ht
  | cons line lines ih =>
    intro text ht hc
    simp only [encodeLines, snd_encodeSegments h, List.mem_cons] at ht
    rcases ht with rfl | ht
    · rcases mem_intercalate hc with hc | ⟨t, ht, hc⟩
      · exact absurd hc (by decide)
      · exact ((encodeSegments_separators h 0 line t ht).2 _ hc).2 rfl
    · exact ih (h.afterLine line) text ht hc

theorem decodeLines_encodeLines (h : run.Bounded) (lines : List (List Segment)) :
    decodeLines run (encodeLines run lines) = .ok lines := by
  induction lines generalizing run with
  | nil => rfl
  | cons line lines ih =>
    have hsep : ∀ text ∈ (encodeSegments run 0 line).1, text ≠ [] ∧ ',' ∉ text := fun text ht =>
      ⟨(encodeSegments_separators h 0 line text ht).1, fun hc =>
        ((encodeSegments_separators h 0 line text ht).2 _ hc).1 rfl⟩
    simp only [encodeLines, decodeLines, segments_of_line hsep, snd_encodeSegments h]
    rw [decodeSegments_encodeSegments h (by omega)]
    simp only [bind, Except.bind, ih (h.afterLine line)]
    rfl

theorem encodeLines_ne_nil {lines : List (List Segment)} (h : lines ≠ []) (run : Running) :
    encodeLines run lines ≠ [] := by
  cases lines with
  | nil => exact absurd rfl h
  | cons line lines => simp [encodeLines]

theorem bounded_zero : Running.Bounded {} := by
  constructor <;> decide

/-- Mappings with one line at least are read back from their text. -/
theorem decode_encode {m : Mappings} (h : m.lines ≠ []) : decode m.encode = .ok m := by
  have hsep := encodeLines_separators bounded_zero m.lines
  rw [decode, encode, String.toList_ofList,
    List.splitOn_intercalate ';' hsep (encodeLines_ne_nil h {}),
    decodeLines_encodeLines bounded_zero]
  rfl

/-- Mappings that were read have one line at least. -/
theorem lines_ne_nil_of_decode {text : String} {m : Mappings} (h : decode text = .ok m) :
    m.lines ≠ [] := by
  have hne : text.toList.splitOn ';' ≠ [] := List.splitOn_ne_nil _ _
  rw [decode] at h
  obtain ⟨line, rest, hl⟩ := List.exists_cons_of_ne_nil hne
  rw [hl, decodeLines] at h
  simp only [bind, Except.bind, pure, Except.pure] at h
  split at h
  · exact nomatch h
  · split at h
    · exact nomatch h
    · obtain rfl := Except.ok.inj h
      simp

/-- Encoding and reading are inverse: mappings with one line at least are read back from their
text, so what was read from any text is read again from its own encoding, and two texts mean the
same exactly when they are encoded alike. -/
theorem decode_encode_normal :
    (∀ m : Mappings, m.lines ≠ [] → decode m.encode = .ok m) ∧
    (∀ text m, decode text = .ok m → decode m.encode = .ok m) ∧
    ∀ text other m n, decode text = .ok m → decode other = .ok n →
      (m.encode = n.encode ↔ m = n) := by
  have again : ∀ {text m}, decode text = .ok m → decode m.encode = .ok m := fun h =>
    decode_encode (lines_ne_nil_of_decode h)
  refine ⟨fun m h => decode_encode h, fun text m h => again h, fun text other m n hm hn => ?_⟩
  refine ⟨fun he => ?_, fun he => he ▸ rfl⟩
  have hn := again hn
  rw [← he, again hm] at hn
  exact Except.ok.inj hn

/-- Columns that run backwards, an empty line and segments of one, four and five fields; and a
text with empty segments and a digit too many, which is not its own normal form. -/
theorem decode_encode_normal_known :
    let m : Mappings := ⟨[[⟨9, none⟩, ⟨4, some ⟨7, 3, 4294967295, none⟩⟩], [],
      [⟨2, some ⟨0, 5, 0, some 6⟩⟩, ⟨2, some ⟨0, 5, 0, some 1⟩⟩]]⟩
    let n : Mappings := ⟨[[⟨0, some ⟨0, 0, 0, none⟩⟩, ⟨4, some ⟨0, 0, 4, none⟩⟩], [],
      [⟨2, some ⟨1, 1, 4, none⟩⟩, ⟨7, some ⟨1, 1, 9, some 0⟩⟩]]⟩
    decode m.encode = .ok m ∧
    decode ",AAAA,,IAgAI;;ECCA,KAAKA" = .ok n ∧ decode n.encode = .ok n ∧
      (m.encode = n.encode ↔ m = n) := by
  intro m n
  have hm : decode m.encode = .ok m := decode_encode_normal.1 m (by decide)
  have hn : decode ",AAAA,,IAgAI;;ECCA,KAAKA" = .ok n := by decide +kernel
  exact ⟨hm, hn, decode_encode_normal.2.1 _ n hn, decode_encode_normal.2.2 _ _ m n hm hn⟩

end Relabel.Mappings
