import Relabel.Markup.Location
import Relabel.Proofs.Text.Boundary

/-!
# Pieces that stand in a text

`p.Stands start cs`: the text `cs`, which begins at the byte `start` of its document, has the text of
`p` at the span of `p`. What stands in a standing piece stands in the whole text (`Stands.trans`), so
the offsets of nested readers are added up once, here. All of this holds of words. Where the text ends
below the last word (`start + size cs < UInt32.size`), no word has come round, and spans are the byte
offsets themselves (`Stands.lies`): only then have pieces an order.
-/

namespace Relabel
open Text

namespace Span
variable {α : Type} {a b : α} {l : List α} {span : α → Span}

/-- No byte belongs to two spans. -/
def Apart (s t : Span) : Prop :=
  s.stop ≤ t.start ∨ t.stop ≤ s.start

theorem Apart.symm {s t : Span} (h : s.Apart t) : t.Apart s := h.elim .inr .inl

/-- Of things that lie one after another, two that are not the same are apart. -/
theorem eq_or_apart (h : l.Pairwise fun a b => (span a).stop ≤ (span b).start) (ha : a ∈ l) (hb : b ∈ l) :
    a = b ∨ (span a).Apart (span b) := by
  have hsymm : Std.Symm fun a b => (span a).Apart (span b) := ⟨fun _ _ => Apart.symm⟩
  have hapart : l.Pairwise fun a b => (span a).Apart (span b) := h.imp Or.inl
  exact or_iff_not_imp_left.2 (hapart.forall ha hb)

/-- A span with its offsets as words. -/
def wrapped (s : Span) : Span :=
  .ofOffsets s.start s.stop

theorem wrapped_of_lt {start stop : Nat} (hle : start ≤ stop) (hfit : stop < UInt32.size) :
    (⟨start, stop⟩ : Span).wrapped = ⟨start, stop⟩ :=
  ofOffsets_of_lt hle hfit

end Span

theorem Text.size_reverse (cs : List Char) : size cs.reverse = size cs := by
  induction cs with
  | nil => rfl
  | cons c cs ih => simp [ih, Nat.add_comm]

namespace Piece
variable {cs ds a b c : List Char} {p q : Piece} {n start : Nat}

/-- A text that begins at the byte `start` has the text of a piece at its span. -/
def Stands (start : Nat) (cs : List Char) (p : Piece) : Prop :=
  ∃ a b c, cs = a ++ b ++ c ∧ p = located (start + size a) b

/-- `Stands` with the byte offsets themselves for words. -/
def Lies (start : Nat) (cs : List Char) (p : Piece) : Prop :=
  ∃ a b c, cs = a ++ b ++ c ∧ p = ⟨.ofList b, ⟨start + size a, start + size a + size b⟩⟩

/-- A text at the byte `n` itself, not at its word. -/
def written (n : Nat) (text : String) : Piece :=
  ⟨text, ⟨n, n + size text.toList⟩⟩

def wrapped (p : Piece) : Piece :=
  ⟨p.text, p.span.wrapped⟩

theorem wrapped_written (n : Nat) (text : String) :
    (written n text).wrapped = located n text.toList := by
  rw [located, String.ofList_toList]
  rfl

theorem wrapped_written_of_lt {text : String} (hfit : n + size text.toList < UInt32.size) :
    (written n text).wrapped = written n text := by
  rw [wrapped, written, Span.wrapped_of_lt (Nat.le_add_right ..) hfit]

@[simp] theorem toList_text_located (n : Nat) (cs : List Char) :
    (located n cs).text.toList = cs := String.toList_ofList

theorem located_congr {m : Nat} (h : m % UInt32.size = n % UInt32.size) (cs : List Char) :
    located m cs = located n cs := by
  rw [located, located, Span.ofOffsets, Span.ofOffsets, Nat.add_mod m, h, ← Nat.add_mod]

@[simp] theorem start_located (n : Nat) (cs : List Char) :
    (located n cs).span.start = n % UInt32.size := rfl

@[simp] theorem located_mod (n : Nat) (cs : List Char) :
    located (n % UInt32.size) cs = located n cs :=
  located_congr (Nat.mod_mod ..) cs

/-- An offset may be added to a word as to the offset itself. -/
@[simp] theorem located_mod_add (n k : Nat) (cs : List Char) :
    located (n % UInt32.size + k) cs = located (n + k) cs :=
  located_congr (Nat.mod_add_mod ..) cs

theorem located_of_lt (h : n + size cs < UInt32.size) :
    located n cs = ⟨.ofList cs, ⟨n, n + size cs⟩⟩ := by
  rw [located, Span.ofOffsets_of_lt (Nat.le_add_right ..) h]

theorem stands_located (start : Nat) (a b c : List Char) :
    (located (start + size a) b).Stands start (a ++ b ++ c) :=
  ⟨a, b, c, rfl, rfl⟩

theorem stands_located_zero (start : Nat) (a b : List Char) :
    (located start a).Stands start (a ++ b) :=
  ⟨[], a, b, rfl, rfl⟩

namespace Lies

theorem append_right (h : p.Lies start cs) (ds : List Char) : p.Lies start (cs ++ ds) := by
  obtain ⟨a, b, c, rfl, rfl⟩ := h
  exact ⟨a, b, c ++ ds, by simp, rfl⟩

theorem append_left (h : p.Lies (start + size ds) cs) : p.Lies start (ds ++ cs) := by
  obtain ⟨a, b, c, rfl, rfl⟩ := h
  exact ⟨ds ++ a, b, c, by simp, by rw [size_append, Nat.add_assoc start]⟩

theorem start_le (h : p.Lies start cs) : start ≤ p.span.start := by
  obtain ⟨a, b, c, rfl, rfl⟩ := h
  exact Nat.le_add_right ..

theorem stop_le (h : p.Lies start cs) : p.span.stop ≤ start + size cs := by
  obtain ⟨a, b, c, rfl, rfl⟩ := h
  simp only [size_append]
  omega

theorem slice?_sub (h : p.Lies start cs) :
    Text.slice? cs ⟨p.span.start - start, p.span.stop - start⟩ = some p.text.toList := by
  obtain ⟨a, b, c, rfl, rfl⟩ := h
  refine slice?_eq_some_iff.2 ⟨a, c, by simp, by simp, ?_⟩
  simp only [String.toList_ofList]
  omega

/-- Offsets in a text that ends below the last word are words. -/
theorem wrapped_eq (h : p.Lies start cs) (hfit : start + size cs < UInt32.size) : p.wrapped = p := by
  obtain ⟨a, b, c, rfl, rfl⟩ := h
  simp only [size_append] at hfit
  rw [wrapped, Span.wrapped_of_lt (Nat.le_add_right ..) (by omega)]

end Lies

namespace Stands

theorem eq_located (h : p.Stands start cs) : p = located p.span.start p.text.toList := by
  obtain ⟨a, b, c, rfl, rfl⟩ := h
  simp

theorem isShort (h : p.Stands start cs) : p.span.IsShort := by
  obtain ⟨a, b, c, rfl, rfl⟩ := h
  exact Span.isShort_ofOffsets ..

theorem append_right (h : p.Stands start cs) (ds : List Char) : p.Stands start (cs ++ ds) := by
  obtain ⟨a, b, c, rfl, rfl⟩ := h
  exact ⟨a, b, c ++ ds, by simp, rfl⟩

theorem append_left (h : p.Stands (start + size ds) cs) : p.Stands start (ds ++ cs) := by
  obtain ⟨a, b, c, rfl, rfl⟩ := h
  exact ⟨ds ++ a, b, c, by simp, by rw [size_append, Nat.add_assoc]⟩

/-- Only the word of the first byte matters. -/
theorem mod_iff : p.Stands (start % UInt32.size) cs ↔ p.Stands start cs := by
  simp only [Stands, located_mod_add]

/-- What stands in a piece that stands in a text stands in the text. -/
theorem trans (hq : q.Stands p.span.start p.text.toList) (hp : p.Stands start cs) :
    q.Stands start cs := by
  obtain ⟨a, b, c, rfl, rfl⟩ := hp
  rw [toList_text_located, start_located, mod_iff] at hq
  exact (append_left hq).append_right c

/-- In a text that ends below the last word a span is a pair of byte offsets. -/
theorem lies (h : p.Stands start cs) (hfit : start + size cs < UInt32.size) : p.Lies start cs := by
  obtain ⟨a, b, c, rfl, rfl⟩ := h
  simp only [size_append] at hfit
  exact ⟨a, b, c, rfl, located_of_lt (by omega)⟩

theorem start_le (h : p.Stands start cs) (hfit : start + size cs < UInt32.size) :
    start ≤ p.span.start :=
  (h.lies hfit).start_le

theorem stop_le (h : p.Stands start cs) (hfit : start + size cs < UInt32.size) :
    p.span.stop ≤ start + size cs :=
  (h.lies hfit).stop_le

theorem stop_eq (h : p.Stands start cs) (hfit : start + size cs < UInt32.size) :
    p.span.stop = p.span.start + size p.text.toList := by
  obtain ⟨a, b, c, rfl, rfl⟩ := h.lies hfit
  rw [String.toList_ofList]

/-- The bytes of a piece end below the last word, too. -/
theorem fits (h : p.Stands start cs) (hfit : start + size cs < UInt32.size) :
    p.span.start + size p.text.toList < UInt32.size :=
  h.stop_eq hfit ▸ Nat.lt_of_le_of_lt (h.stop_le hfit) hfit

/-- A piece that stands in a text from the byte `start` on is what the text has that far before its span. -/
theorem slice?_sub (h : p.Stands start cs) (hfit : start + size cs < UInt32.size) :
    Text.slice? cs ⟨p.span.start - start, p.span.stop - start⟩ = some p.text.toList :=
  (h.lies hfit).slice?_sub

/-- A piece that stands in a text is what the text has at its span. -/
theorem slice? (h : p.Stands 0 cs) (hfit : size cs < UInt32.size) :
    Text.slice? cs p.span = some p.text.toList :=
  h.slice?_sub (by omega)

end Stands

/-! ### Order -/

/-- A piece stops before another one starts, or where it starts. -/
def Before (p q : Piece) : Prop :=
  p.span.stop ≤ q.span.start

/-- At least one byte lies between a piece and a later one. -/
def Ahead (p q : Piece) : Prop :=
  p.span.stop < q.span.start

theorem Ahead.before (h : p.Ahead q) : p.Before q := Nat.le_of_lt h

/-- The bytes of a piece are among those of another one. -/
def Inside (p q : Piece) : Prop :=
  q.span.start ≤ p.span.start ∧ p.span.stop ≤ q.span.stop

theorem Before.of_inside {p' q' : Piece} (h : p'.Before q') (hp : p.Inside p') (hq : q.Inside q') :
    p.Before q :=
  Nat.le_trans hp.2 (Nat.le_trans h hq.1)

theorem Ahead.of_inside {p' q' : Piece} (h : p'.Ahead q') (hp : p.Inside p') (hq : q.Inside q') : p.Ahead q :=
  Nat.lt_of_le_of_lt hp.2 (Nat.lt_of_lt_of_le h hq.1)

theorem Stands.self (h : p.Stands start cs) : p.Stands p.span.start p.text.toList :=
  ⟨[], p.text.toList, [], by simp, h.eq_located⟩

/-- What stands in a piece lies inside it. -/
theorem Stands.inside (hp : p.Stands start cs) (hfit : start + size cs < UInt32.size)
    (hq : q.Stands p.span.start p.text.toList) : q.Inside p :=
  ⟨hq.start_le (hp.fits hfit), hp.stop_eq hfit ▸ hq.stop_le (hp.fits hfit)⟩

theorem Stands.standsIn (h : p.Stands 0 cs) (hfit : size cs < UInt32.size) :
    Markup.standsIn cs p = true :=
  beq_iff_eq.2 (h.slice? hfit)

end Piece

end Relabel
