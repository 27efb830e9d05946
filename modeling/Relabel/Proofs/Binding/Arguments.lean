import Relabel.Proofs.Binding.Names
import Relabel.Proofs.Text.Classes

/-!
# The arguments of a list

Splitting a list of arguments loses nothing and cuts nothing but top-level commas
(`arguments_splitArguments`). A comma is top-level if an even number of quotes before it open or close a
literal (`toggles`), which is where the scan is outside quotes (`steps_outside_iff`). A character of the list
is either a comma between two parts (`parts_of_comma`) or stands in a part (`parts_of_char`); trimming
takes blanks only off a part, so what is no blank stays in its piece. A literal has no top-level comma and
no blanks at its ends. All of this is about byte offsets (`placeParts`); the pieces have the words of these,
which are the offsets themselves as long as the list ends below the last word.
-/

namespace Relabel
open Text
variable {cs args front back part : List Char} {parts xs ys : List (List Char)} {p q : Piece} {start base : Nat}
  {s : QuoteState}

/-! ### Quotes -/

def isQuote (c : Char) : Bool :=
  c == '\'' || c == '"'

/-- The number of quotes in a text that open or close a literal. The text begins inside a literal with a
given quote or outside of literals; inside, a backslash takes the next character with it. -/
def togglesFrom : Option Char → List Char → Nat
  | _, [] => 0
  | none, c :: cs => if isQuote c then togglesFrom (some c) cs + 1 else togglesFrom none cs
  | some q, '\\' :: _ :: cs => togglesFrom (some q) cs
  | some q, c :: cs => if c = q then togglesFrom none cs + 1 else togglesFrom (some q) cs

/-- The number of quotes in a text that open or close a literal. -/
def toggles (cs : List Char) : Nat :=
  togglesFrom none cs

/-- A list has a comma between `front` and `back` that stands in no literal. -/
structure TopComma (args front back : List Char) : Prop where
  eq : args = front ++ ',' :: back
  even : Even (toggles front)

/-- Pieces are the arguments that the top-level commas of a list separate. -/
structure Arguments (args : List Char) (base : Nat) (pieces : List Piece) : Prop where
  nonempty : ∀ p ∈ pieces, p.text.toList ≠ []
  trimmed : ∀ p ∈ pieces, trim p.text.toList = p.text.toList
  ordered : pieces.Pairwise Piece.Before
  sliced : ∀ p ∈ pieces, base ≤ p.span.start ∧
    slice? args ⟨p.span.start - base, p.span.stop - base⟩ = some p.text.toList
  separated : pieces.IsChain fun p q =>
    ∃ front back, TopComma args front back ∧ p.span.stop ≤ base + size front ∧ base + size front < q.span.start
  uncut : ∀ p ∈ pieces, ∀ front back, TopComma args front back →
    base + size front < p.span.start ∨ p.span.stop ≤ base + size front
  covered : ∀ front c back, args = front ++ c :: back → isBlank c = false → ¬ (c = ',' ∧ Even (toggles front)) →
    ∃! p, p ∈ pieces ∧ p.span.start ≤ base + size front ∧ base + size (front ++ [c]) ≤ p.span.stop

namespace QuoteState

/-- The state after a text. -/
def steps (s : QuoteState) (cs : List Char) : QuoteState :=
  cs.foldl (fun s c => s.step c) s

@[simp] theorem steps_nil (s : QuoteState) : s.steps [] = s := rfl

@[simp] theorem steps_cons (s : QuoteState) (c : Char) (cs : List Char) : s.steps (c :: cs) = (s.step c).steps cs := rfl

/-- Where a text begins: inside a literal or outside of literals. -/
def begun : Option Char → QuoteState
  | none => outside
  | some q => inside q

/-- A scan from outside is outside again after an even number of toggles. -/
theorem steps_begun_iff {quote : Option Char} (hquote : ∀ q ∈ quote, q ≠ '\\') (cs : List Char) :
    (begun quote).steps cs = outside ↔ (Even (togglesFrom quote cs) ↔ quote = none) := by
  fun_induction togglesFrom quote cs with
  | case1 quote => cases quote <;> simp [begun]
  | case2 c cs hc ih =>
    have hstep : step c outside = inside c := by
      rw [step, if_pos (by simpa [isQuote] using hc)]
    have hne : c ≠ '\\' := by
      rintro rfl
      exact absurd hc (by decide)
    have hrest := ih (by simpa using hne)
    simpa [begun, hstep, Nat.even_add_one] using hrest
  | case3 c cs hc ih =>
    have hstep : step c outside = outside := by
      rw [step, if_neg (by simpa [isQuote] using hc)]
    simpa [begun, hstep] using ih (by simp)
  | case4 q c cs ih => simpa [begun, step] using ih hquote
  | case5 c cs hescape ih =>
    have hne := hquote c rfl
    simpa [begun, step, hne, Nat.even_add_one] using ih (by simp)
  | case6 q c cs hescape hc ih =>
    by_cases hslash : c = '\\'
    · cases cs with
      | nil => simp [begun, step, hslash, togglesFrom]
      | cons d cs => exact absurd rfl (hescape d cs hslash)
    · simpa [begun, step, hslash, hc] using ih hquote

theorem steps_outside_iff (cs : List Char) : outside.steps cs = outside ↔ Even (toggles cs) := by
  simpa [begun, toggles] using @steps_begun_iff none (by simp) cs

end QuoteState

/-! ### Parts -/

/-- Parts of a list, each with the comma behind it. -/
def commaed (parts : List (List Char)) : List Char :=
  parts.flatMap (· ++ [','])

@[simp] theorem commaed_nil : commaed [] = [] := rfl

@[simp] theorem commaed_cons (part : List Char) (parts : List (List Char)) :
    commaed (part :: parts) = part ++ ',' :: commaed parts := by
  simp [commaed]

theorem commaed_eq_intercalate (h : xs ≠ []) : commaed xs = [','].intercalate xs ++ [','] := by
  induction xs with
  | nil => exact absurd rfl h
  | cons x xs ih =>
    cases xs with
    | nil => simp
    | cons y xs =>
      rw [commaed_cons, ih (List.cons_ne_nil y xs), List.intercalate_cons_cons]
      simp

theorem intercalate_append (hys : ys ≠ []) :
    [','].intercalate (xs ++ ys) = commaed xs ++ [','].intercalate ys := by
  induction xs with
  | nil => rfl
  | cons x xs ih =>
    rw [List.cons_append, List.intercalate_cons_of_ne_nil (List.append_ne_nil_of_right_ne_nil xs hys), ih, commaed_cons]
    simp

/-- A comma outside quotes lies between two parts. -/
theorem parts_of_comma (h : cs = front ++ ',' :: back) (hs : s.steps front = .outside) :
    ∃ xs ys, commaParts s cs = xs ++ ys ∧ commaed xs = front ++ [','] := by
  induction cs generalizing s front with
  | nil => simp at h
  | cons d cs ih =>
    cases front with
    | nil =>
      obtain ⟨rfl, rfl⟩ := List.cons.inj h
      rw [commaParts, if_pos ⟨hs, rfl⟩]
      exact ⟨[[]], _, rfl, rfl⟩
    | cons e front =>
      obtain ⟨rfl, hcs⟩ := List.cons.inj h
      obtain ⟨xs, ys, hparts, hxs⟩ := ih hcs hs
      rw [commaParts]
      split
      · next hcomma =>
        obtain ⟨rfl, rfl⟩ := hcomma
        exact ⟨[] :: xs, ys, congrArg ([] :: ·) hparts, by simp [hxs]⟩
      · cases xs with
        | nil => simp at hxs
        | cons x xs =>
          rw [List.cons_append] at hparts
          rw [hparts]
          exact ⟨(d :: x) :: xs, ys, rfl, by simpa using hxs⟩

/-- Any other character stands in a part. -/
theorem parts_of_char {c : Char} (h : cs = front ++ c :: back) (hc : ¬ (s.steps front = .outside ∧ c = ',')) :
    ∃ xs u v ys, commaParts s cs = xs ++ (u ++ c :: v) :: ys ∧ front = commaed xs ++ u := by
  induction cs generalizing s front with
  | nil => simp at h
  | cons d cs ih =>
    cases front with
    | nil =>
      obtain ⟨rfl, rfl⟩ := List.cons.inj h
      obtain ⟨part, parts, hparts⟩ := List.exists_cons_of_ne_nil (commaParts_ne_nil (s.step d) cs)
      rw [commaParts, if_neg (by simpa using hc), hparts]
      exact ⟨[], [], part, parts, rfl, rfl⟩
    | cons e front =>
      obtain ⟨rfl, hcs⟩ := List.cons.inj h
      obtain ⟨xs, u, v, ys, hparts, rfl⟩ := ih hcs hc
      rw [commaParts]
      split
      · next hcomma =>
        obtain ⟨rfl, rfl⟩ := hcomma
        exact ⟨[] :: xs, u, v, ys, congrArg ([] :: ·) hparts, by simp⟩
      · cases xs with
        | nil =>
          rw [List.nil_append] at hparts
          rw [hparts]
          exact ⟨[], d :: u, v, ys, rfl, rfl⟩
        | cons x xs =>
          rw [List.cons_append] at hparts
          rw [hparts]
          exact ⟨(d :: x) :: xs, u, v, ys, rfl, by simp⟩

/-- The scan is outside quotes at the comma between two parts. -/
theorem steps_of_parts (h : commaParts s cs = xs ++ ys) (hxs : xs ≠ []) (hys : ys ≠ []) :
    s.steps ([','].intercalate xs) = .outside := by
  induction cs generalizing s xs with
  | nil =>
    have hlength := congrArg List.length h
    have hx := List.length_pos_iff.2 hxs
    have hy := List.length_pos_iff.2 hys
    simp [commaParts] at hlength
    omega
  | cons c cs ih =>
    rw [commaParts] at h
    split at h
    · next hcomma =>
      obtain ⟨rfl, rfl⟩ := hcomma
      obtain ⟨x, xs, rfl⟩ := List.exists_cons_of_ne_nil hxs
      obtain ⟨rfl, hrest⟩ := List.cons.inj h
      cases xs with
      | nil => rfl
      | cons y xs =>
        rw [List.intercalate_cons_cons]
        exact ih hrest (List.cons_ne_nil y xs)
    · obtain ⟨part, parts, hparts⟩ := List.exists_cons_of_ne_nil (commaParts_ne_nil (s.step c) cs)
      rw [hparts] at h
      obtain ⟨x, xs, rfl⟩ := List.exists_cons_of_ne_nil hxs
      obtain ⟨rfl, rfl⟩ := List.cons.inj h
      have hrest := ih (hparts.trans (List.cons_append ..).symm) (List.cons_ne_nil part xs)
      cases xs with
      | nil => simpa using hrest
      | cons y xs => simpa [List.intercalate_cons_cons] using hrest

/-! ### Pieces -/

/-- What `locateParts` gives, with the byte offsets themselves for words. -/
def placeParts (start : Nat) : List (List Char) → List Piece
  | [] => []
  | part :: parts =>
    let rest := placeParts (start + size part + 1) parts
    if (trim part).isEmpty then rest else .written (start + lead part) (.ofList (trim part)) :: rest

theorem locateParts_eq_map (start : Nat) (parts : List (List Char)) :
    locateParts start parts = (placeParts start parts).map Piece.wrapped := by
  induction parts generalizing start with
  | nil => rfl
  | cons part parts ih =>
    simp only [locateParts, placeParts, ih]
    split
    · rfl
    · rw [List.map_cons, Piece.wrapped_written, String.toList_ofList, Piece.trimmedAt]

theorem placeParts_append (start : Nat) (xs ys : List (List Char)) :
    placeParts start (xs ++ ys) = placeParts start xs ++ placeParts (start + size (commaed xs)) ys := by
  induction xs generalizing start with
  | nil => rfl
  | cons x xs ih =>
    have hcomma : ','.utf8Size = 1 := rfl
    have hsize : start + size (commaed (x :: xs)) = start + size x + 1 + size (commaed xs) := by
      rw [commaed_cons, size_append, size_cons]
      omega
    simp only [List.cons_append, placeParts, ih, hsize]
    split
    · rfl
    · rfl

theorem exists_of_mem_placeParts (h : p ∈ placeParts start parts) :
    ∃ n part, p = .written (n + lead part) (.ofList (trim part)) ∧ trim part ≠ [] := by
  induction parts generalizing start with
  | nil => cases h
  | cons part parts ih =>
    simp only [placeParts] at h
    split at h
    · exact ih h
    · next hpart =>
      rcases List.mem_cons.1 h with rfl | h
      · exact ⟨start, part, rfl, by simpa using hpart⟩
      · exact ih h

theorem lies_trim (start : Nat) (part : List Char) :
    (Piece.written (start + lead part) (.ofList (trim part))).Lies start part := by
  obtain ⟨b, hb, -⟩ := exists_trim_append part
  refine ⟨part.takeWhile isBlank, trim part, b, hb, ?_⟩
  rw [Piece.written, String.toList_ofList, lead]

theorem lies_placeParts (h : p ∈ placeParts start parts) : p.Lies start ([','].intercalate parts) := by
  induction parts generalizing start with
  | nil => cases h
  | cons part parts ih =>
    simp only [placeParts] at h
    cases parts with
    | nil =>
      split at h
      · cases h
      · obtain rfl := List.mem_singleton.1 h
        simpa using lies_trim start part
    | cons part' parts =>
      rw [List.intercalate_cons_cons, List.append_assoc]
      have hrest (h : p ∈ placeParts (start + size part + 1) (part' :: parts)) :
          p.Lies start (part ++ ([','] ++ [','].intercalate (part' :: parts))) :=
        Piece.Lies.append_left (Piece.Lies.append_left (ih h))
      split at h
      · exact hrest h
      · rcases List.mem_cons.1 h with rfl | h
        · exact (lies_trim start part).append_right _
        · exact hrest h

/-- Between two pieces ends a part. -/
theorem separated_placeParts (start : Nat) (parts : List (List Char)) :
    (placeParts start parts).Pairwise fun p q =>
      ∃ xs ys, parts = xs ++ ys ∧ xs ≠ [] ∧ ys ≠ [] ∧ p.span.stop ≤ start + size ([','].intercalate xs) ∧
        start + size ([','].intercalate xs) < q.span.start := by
  induction parts generalizing start with
  | nil => exact .nil
  | cons part parts ih =>
    have hrest : (placeParts (start + size part + 1) parts).Pairwise fun p q =>
        ∃ xs ys, part :: parts = xs ++ ys ∧ xs ≠ [] ∧ ys ≠ [] ∧ p.span.stop ≤ start + size ([','].intercalate xs) ∧
          start + size ([','].intercalate xs) < q.span.start := by
      refine (ih (start + size part + 1)).imp fun {p q} hpq => ?_
      obtain ⟨xs, ys, rfl, hxs, hys, hp, hq⟩ := hpq
      have hsize : size ([','].intercalate (part :: xs)) = size part + 1 + size ([','].intercalate xs) := by
        rw [List.intercalate_cons_of_ne_nil hxs, size_append, size_append]
        rfl
      exact ⟨part :: xs, ys, rfl, List.cons_ne_nil _ _, hys, by omega, by omega⟩
    simp only [placeParts]
    split
    · exact hrest
    · refine List.pairwise_cons.2 ⟨fun q hq => ⟨[part], parts, rfl, List.cons_ne_nil _ _, ?_, ?_, ?_⟩, hrest⟩
      · rintro rfl
        cases hq
      · simpa using (lies_trim start part).stop_le
      · have := (lies_placeParts hq).start_le
        simp only [List.intercalate_singleton]
        omega

/-! ### Arguments -/

theorem TopComma.exists_parts (h : TopComma args front back) :
    ∃ xs ys, commaParts .outside args = xs ++ ys ∧ commaed xs = front ++ [','] ∧ [','].intercalate xs = front := by
  obtain ⟨xs, ys, hparts, hxs⟩ := parts_of_comma h.eq ((QuoteState.steps_outside_iff front).2 h.even)
  have hne : xs ≠ [] := by
    rintro rfl
    simp at hxs
  refine ⟨xs, ys, hparts, hxs, ?_⟩
  rw [commaed_eq_intercalate hne] at hxs
  exact List.append_cancel_right hxs

/-- Splitting gives the arguments that the top-level commas separate. -/
theorem arguments_of_place (args : List Char) (base : Nat) :
    Arguments args base (placeParts base (commaParts .outside args)) := by
  have hlies {p : Piece} (hp : p ∈ placeParts base (commaParts .outside args)) : p.Lies base args := by
    have h := lies_placeParts hp
    rwa [intercalate_commaParts] at h
  have hnonempty {p : Piece} (hp : p ∈ placeParts base (commaParts .outside args)) : p.text.toList ≠ [] := by
    obtain ⟨n, part, rfl, hne⟩ := exists_of_mem_placeParts hp
    rwa [Piece.written, String.toList_ofList]
  have hordered : (placeParts base (commaParts .outside args)).Pairwise Piece.Before := by
    refine (separated_placeParts base (commaParts .outside args)).imp fun {p q} hpq => ?_
    obtain ⟨xs, ys, -, -, -, hp, hq⟩ := hpq
    exact Nat.le_trans hp (Nat.le_of_lt hq)
  refine ⟨fun p hp => hnonempty hp, fun p hp => ?_, hordered,
    fun p hp => ⟨(hlies hp).start_le, (hlies hp).slice?_sub⟩, ?_, fun p hp front back h => ?_, fun front c back h hblank hc => ?_⟩
  · obtain ⟨n, part, rfl, -⟩ := exists_of_mem_placeParts hp
    rw [Piece.written, String.toList_ofList]
    exact (isTrim_trim part).trim_eq
  · refine ((separated_placeParts base (commaParts .outside args)).imp fun {p q} hpq => ?_).isChain
    obtain ⟨xs, ys, hparts, hxs, hys, hp, hq⟩ := hpq
    refine ⟨[','].intercalate xs, [','].intercalate ys, ⟨?_, ?_⟩, hp, hq⟩
    · rw [← intercalate_commaParts .outside args, hparts, intercalate_append hys, commaed_eq_intercalate hxs]
      simp
    · exact (QuoteState.steps_outside_iff _).1 (steps_of_parts hparts hxs hys)
  · obtain ⟨xs, ys, hparts, hxs, hfront⟩ := h.exists_parts
    rw [hparts, placeParts_append, hxs, List.mem_append] at hp
    rcases hp with hp | hp
    · have := (lies_placeParts hp).stop_le
      rw [hfront] at this
      exact .inr this
    · have := (lies_placeParts hp).start_le
      rw [size_append] at this
      have hcomma : size [','] = 1 := rfl
      exact .inl (by omega)
  · have hstate : ¬ (QuoteState.outside.steps front = .outside ∧ c = ',') := by
      rintro ⟨hs, hcomma⟩
      exact hc ⟨hcomma, (QuoteState.steps_outside_iff front).1 hs⟩
    obtain ⟨xs, u, v, ys, hparts, rfl⟩ := parts_of_char h hstate
    obtain ⟨hlead, hstop⟩ := @trim_keeps u v c hblank
    have hpos := c.utf8Size_pos
    simp only [size_append, size_cons, size_nil] at hstop ⊢
    have hne : ¬ (trim (u ++ c :: v)).isEmpty = true := by
      rw [List.isEmpty_iff]
      intro hnil
      rw [hnil, size_nil] at hstop
      omega
    let piece : Piece := .written (base + size (commaed xs) + lead (u ++ c :: v)) (.ofList (trim (u ++ c :: v)))
    have hmem : piece ∈ placeParts base (commaParts .outside args) := by
      rw [hparts, placeParts_append, placeParts]
      simp only [if_neg hne]
      simp [piece]
    have hstart : piece.span.start = base + size (commaed xs) + lead (u ++ c :: v) := rfl
    have hend : piece.span.stop = piece.span.start + size (trim (u ++ c :: v)) := by
      simp [piece, Piece.written]
    refine ⟨piece, ⟨hmem, by omega, by omega⟩, ?_⟩
    rintro q ⟨hq, hqstart, hqstop⟩
    refine (Span.eq_or_apart hordered hq hmem).resolve_right fun hapart => ?_
    unfold Span.Apart at hapart
    omega

/-! ### Literals -/

/-- A text without a comma outside quotes is one part. -/
theorem commaParts_eq (h : ∀ front back, cs = front ++ ',' :: back → s.steps front ≠ .outside) :
    commaParts s cs = [cs] := by
  induction cs generalizing s with
  | nil => rfl
  | cons c cs ih =>
    have hrest := ih fun front back hcs => h (c :: front) back (congrArg (c :: ·) hcs)
    have hcomma : ¬ (s = .outside ∧ c = ',') := by
      rintro ⟨hs, rfl⟩
      exact h [] cs rfl hs
    rw [commaParts, if_neg hcomma, hrest]

/-- What is one part and has no blanks at its ends is one piece. -/
theorem splitArguments_eq (hparts : commaParts .outside args = [args]) (hne : args ≠ []) (h : IsTrim args) (base : Nat) :
    splitArguments args base = [.located base args] := by
  have htrim : ¬ (trim args).isEmpty = true := by simpa [h.trim_eq] using hne
  rw [splitArguments, hparts, locateParts]
  simp only [if_neg htrim]
  rw [locateParts, Piece.trimmedAt, h.lead_eq, h.trim_eq, Nat.add_zero]

/-- After its opening quote a string is one part, up to the quote that closes it. -/
theorem commaParts_of_stringBody {quote : Char} (h : stringBody quote cs = true) :
    commaParts (.inside quote) cs = [cs] ∧ ∃ body, cs = body ++ [quote] := by
  fun_induction stringBody quote cs with
  | case1 => cases h
  | case2 c cs ih =>
    rw [Bool.and_eq_true] at h
    obtain ⟨hparts, body, rfl⟩ := ih h.2
    exact ⟨by simp [commaParts, QuoteState.step, hparts], '\\' :: c :: body, rfl⟩
  | case3 cs hescape =>
    obtain rfl := List.isEmpty_iff.1 h
    exact ⟨by simp [commaParts], [], rfl⟩
  | case4 c cs hescape hc ih =>
    rw [Bool.and_eq_true, bne_iff_ne] at h
    obtain ⟨hparts, body, rfl⟩ := ih h.2
    exact ⟨by simp [commaParts, QuoteState.step, hc, h.1, hparts], c :: body, rfl⟩

/-- The characters of numbers. -/
def inNumber (c : Char) : Bool :=
  isDigit c || c == '+' || c == '-' || c == '.' || c == 'e' || c == 'E'

theorem digits_contains_of_isDigit {c : Char} (h : isDigit c = true) : digits.contains c = true := by
  simp only [isDigit, isAsciiDigit, Bool.or_eq_true, Bool.and_eq_true, decide_eq_true_eq] at h
  rcases h with h | ⟨-, h⟩
  · exact CodeSet.contains_of_mem (List.mem_cons_self ..) h
  · exact h

/-- No character of a number is a blank, a comma or a quote. -/
theorem plain_of_inNumber {c : Char} (h : inNumber c = true) : isBlank c = false ∧ c ≠ ',' ∧ isQuote c = false := by
  by_cases hdigit : isDigit c = true
  · have hcontains := digits_contains_of_isDigit hdigit
    have hapart : digits.apart blanks = true := by decide
    refine ⟨CodeSet.not_contains_of_apart hapart hcontains, ?_, ?_⟩
    · rintro rfl
      exact absurd hcontains (by decide)
    · rw [isQuote, Bool.or_eq_false_iff, beq_eq_false_iff_ne, beq_eq_false_iff_ne]
      constructor
      · rintro rfl
        exact absurd hcontains (by decide)
      · rintro rfl
        exact absurd hcontains (by decide)
  · have hother : c = '+' ∨ c = '-' ∨ c = '.' ∨ c = 'e' ∨ c = 'E' := by
      simpa [inNumber, hdigit, or_assoc] using h
    rcases hother with rfl | rfl | rfl | rfl | rfl <;> decide

theorem inNumber_of_isDigit {c : Char} (h : isDigit c = true) : inNumber c = true := by
  simp [inNumber, h]

theorem inNumber_of_skipSign (h : ∀ c ∈ skipSign cs, inNumber c = true) : ∀ c ∈ cs, inNumber c = true := by
  unfold skipSign at h
  split at h
  · exact List.forall_mem_cons.2 ⟨by decide, h⟩
  · exact List.forall_mem_cons.2 ⟨by decide, h⟩
  · exact h

theorem inNumber_of_dropWhile (h : ∀ c ∈ cs.dropWhile isDigit, inNumber c = true) : ∀ c ∈ cs, inNumber c = true := by
  intro c hc
  rw [← List.takeWhile_append_dropWhile (p := isDigit) (l := cs), List.mem_append] at hc
  rcases hc with hc | hc
  · exact inNumber_of_isDigit (List.all_eq_true.1 List.all_takeWhile c hc)
  · exact h c hc

theorem inNumber_of_exponentOrEnd (h : exponentOrEnd cs = true) : ∀ c ∈ cs, inNumber c = true := by
  cases cs with
  | nil => exact fun c hc => nomatch hc
  | cons c cs =>
    simp only [exponentOrEnd, Bool.and_eq_true, List.all_eq_true] at h
    refine List.forall_mem_cons.2 ⟨?_, inNumber_of_skipSign fun d hd => inNumber_of_isDigit (h.2 d hd)⟩
    have he : c = 'e' ∨ c = 'E' := by simpa using h.1.1
    rcases he with rfl | rfl <;> decide

theorem inNumber_of_unsignedNumber (h : unsignedNumber cs = true) : cs ≠ [] ∧ ∀ c ∈ cs, inNumber c = true := by
  have hpoint {fraction : List Char} (h : exponentOrEnd (fraction.dropWhile isDigit) = true) :
      ∀ c ∈ '.' :: fraction, inNumber c = true :=
    List.forall_mem_cons.2 ⟨by decide, inNumber_of_dropWhile (inNumber_of_exponentOrEnd h)⟩
  refine ⟨fun hnil => by simp [hnil, unsignedNumber] at h, inNumber_of_dropWhile ?_⟩
  simp only [unsignedNumber] at h
  split at h
  · split at h
    · next fraction hrest => exact hrest ▸ hpoint h
    · exact inNumber_of_exponentOrEnd h
  · split at h
    · next fraction hrest => exact hrest ▸ hpoint (Bool.and_eq_true_iff.1 h).2
    · cases h

theorem isTrim_of_forall (h : ∀ c ∈ cs, isBlank c = false) : IsTrim cs :=
  ⟨fun c hc => h c (List.mem_of_mem_head? hc), fun c hc => h c (List.mem_of_mem_getLast? hc)⟩

/-- A number is one part. -/
theorem commaParts_of_inNumber (h : ∀ c ∈ cs, inNumber c = true) : commaParts .outside cs = [cs] :=
  commaParts_eq fun front back hcs _ => by
    have hcomma := h ',' (hcs ▸ by simp)
    exact absurd hcomma (by decide)

/-- A literal is one piece. -/
theorem splitArguments_of_isLiteral {text : String} (h : isLiteral text = true) (base : Nat) :
    splitArguments text.toList base = [.located base text.toList] := by
  have hstring {quote : Char} {cs : List Char} (hquote : isQuote quote = true) (hbody : stringBody quote cs = true) :
      splitArguments (quote :: cs) base = [.located base (quote :: cs)] := by
    have hblank : isBlank quote = false := by
      have : quote = '\'' ∨ quote = '"' := by simpa [isQuote] using hquote
      rcases this with rfl | rfl <;> decide
    obtain ⟨hparts, body, rfl⟩ := commaParts_of_stringBody hbody
    have hcomma : ¬ (QuoteState.outside = .outside ∧ quote = ',') := by
      rintro ⟨-, rfl⟩
      exact absurd hquote (by decide)
    have hstep : QuoteState.step quote .outside = .inside quote := by
      rw [QuoteState.step, if_pos (by simpa [isQuote] using hquote)]
    refine splitArguments_eq ?_ (List.cons_ne_nil _ _) ⟨?_, ?_⟩ base
    · rw [commaParts, if_neg hcomma, hstep, hparts]
    · rintro c hc
      obtain rfl := Option.some.inj hc
      exact hblank
    · rintro c hc
      rw [← List.cons_append, List.getLast?_concat] at hc
      obtain rfl := Option.some.inj hc
      exact hblank
  unfold isLiteral at h
  split at h
  · next cs hcs => exact hcs ▸ hstring (by decide) h
  · next cs hcs => exact hcs ▸ hstring (by decide) h
  · obtain ⟨hne, hnumber⟩ := inNumber_of_unsignedNumber h
    have hall := inNumber_of_skipSign hnumber
    refine splitArguments_eq (commaParts_of_inNumber hall) ?_ ?_ base
    · rintro hnil
      exact hne (by rw [hnil]; rfl)
    · exact isTrim_of_forall fun c hc => (plain_of_inNumber (hall c hc)).1

/-! ### Lists of arguments -/

/-- The places in a list that ends below the last word are words. -/
theorem splitArguments_of_lt (hfit : base + size args < UInt32.size) :
    splitArguments args base = placeParts base (commaParts .outside args) := by
  have hwords : ∀ p ∈ placeParts base (commaParts .outside args), p.wrapped = p := by
    intro p hp
    have hlies := lies_placeParts hp
    rw [intercalate_commaParts] at hlies
    exact hlies.wrapped_eq hfit
  rw [splitArguments, locateParts_eq_map, List.map_congr_left hwords, List.map_id']

/-- Splitting a list of arguments gives the arguments that its top-level commas separate, each at the word of
its place; where the list ends below the last word, at the place itself. A literal is an argument of its own. -/
theorem arguments_splitArguments (args : List Char) (base : Nat) :
    (base + size args < UInt32.size → Arguments args base (splitArguments args base)) ∧
      (∃ pieces, Arguments args base pieces ∧ splitArguments args base = pieces.map Piece.wrapped) ∧
      (isLiteral (.ofList args) = true → splitArguments args base = [.located base args]) := by
  refine ⟨fun hfit => ?_, ⟨_, arguments_of_place args base, locateParts_eq_map ..⟩, fun h => ?_⟩
  · exact splitArguments_of_lt hfit ▸ arguments_of_place args base
  · have hsplit := splitArguments_of_isLiteral h base
    rwa [String.toList_ofList] at hsplit

/-- A comma inside quotes cuts nothing, and neither does one behind a quote that is never closed. -/
theorem arguments_splitArguments_quoted :
    5 + size "a, ' b,c' ,, \"d,e".toList < UInt32.size ∧
      Arguments "a, ' b,c' ,, \"d,e".toList 5 [⟨"a", ⟨5, 6⟩⟩, ⟨"' b,c'", ⟨8, 14⟩⟩, ⟨"\"d,e", ⟨18, 22⟩⟩] := by
  have hfit : 5 + size "a, ' b,c' ,, \"d,e".toList < UInt32.size := by decide
  have hsplit : splitArguments "a, ' b,c' ,, \"d,e".toList 5 =
      [⟨"a", ⟨5, 6⟩⟩, ⟨"' b,c'", ⟨8, 14⟩⟩, ⟨"\"d,e", ⟨18, 22⟩⟩] := by decide
  exact ⟨hfit, hsplit ▸ (arguments_splitArguments "a, ' b,c' ,, \"d,e".toList 5).1 hfit⟩

/-- An argument on the last word stops at the word zero, where the list has nothing of it. -/
theorem not_arguments_last_word : ¬ Arguments ['a'] 4294967295 (splitArguments ['a'] 4294967295) := by
  intro h
  have hsplit : splitArguments ['a'] 4294967295 = [⟨"a", ⟨4294967295, 0⟩⟩] := by decide
  obtain ⟨-, hslice⟩ := h.sliced ⟨"a", ⟨4294967295, 0⟩⟩ (hsplit ▸ List.mem_singleton_self _)
  exact absurd hslice (by decide)

end Relabel
