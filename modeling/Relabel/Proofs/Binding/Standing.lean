import Relabel.Binding.Expression
import Relabel.Proofs.Binding.Delimited
import Relabel.Proofs.Text.Standing

/-!
# Parts of bindings stand in their text

The expression of a binding stands in the text that is scanned, and the name and the arguments of a
call stand in the expression. Each reader cuts its text and passes the number of bytes before the
cut on; the lemmas say of each that the pieces it makes are where it says.
-/

namespace Relabel
open Text

namespace Text
variable {cs : List Char}

theorem eq_append_of_stripSuffix? {word stem : List Char} (h : stripSuffix? word cs = some stem) :
    cs = stem ++ word := by
  obtain ⟨rest, hrest, rfl⟩ := Option.map_eq_some_iff.1 h
  rw [← List.reverse_inj, eq_append_of_stripPrefix? hrest]
  simp

end Text

namespace Piece
variable {cs stem : List Char} {p q : Piece} {start : Nat}

theorem stands_trimmedAt (start : Nat) (cs : List Char) : (trimmedAt start cs).Stands start cs := by
  obtain ⟨b, hb, -⟩ := exists_trim_append cs
  have h := stands_located start (cs.takeWhile isBlank) (trim cs) b
  rwa [← hb] at h

/-- A text at the start of a piece, where the piece starts. -/
theorem stands_located_stem {rest : List Char} (hp : p.text.toList = stem ++ rest) :
    (located p.span.start stem).Stands p.span.start p.text.toList :=
  hp ▸ stands_located_zero _ stem rest

theorem Stands.withoutSuffix (h : p.Stands start cs) :
    p.withoutSuffix.Stands p.span.start p.text.toList := by
  simp only [Piece.withoutSuffix]
  split
  · next stem hstem => exact stands_located_stem (eq_append_of_stripSuffix? hstem)
  · split
    · next stem hstem => exact stands_located_stem (eq_append_of_stripSuffix? hstem)
    · exact ⟨[], p.text.toList, [], by simp, h.eq_located⟩

end Piece

namespace Binding
variable {offset : Nat} {cs rest : List Char} {b : Binding}

theorem stands_inside (start : Nat) (raw : List Char) : (inside start raw).1.Stands start raw ∧
    ∀ e ∈ (inside start raw).2, e.Stands start raw := by
  unfold inside
  split
  · next expression event hcut =>
    obtain ⟨blanks, hblanks, -⟩ := exists_trimEnd_append expression
    have hraw := eq_append_of_cut? hcut
    constructor
    · have h := Piece.stands_located_zero start (trimEnd expression) (blanks ++ [':', ':'] ++ event)
      rwa [List.append_assoc, ← List.append_assoc, ← hblanks, ← List.append_assoc, ← hraw] at h
    · intro e he
      obtain rfl := Option.some.inj he
      have hsize : start + size expression + 2 = start + size (expression ++ [':', ':']) := by
        rw [size_append, Nat.add_assoc]
        rfl
      rw [hraw, hsize]
      exact (Piece.stands_trimmedAt _ event).append_left
  · obtain ⟨blanks, hblanks, -⟩ := exists_trimEnd_append raw
    have h := Piece.stands_located_zero start (trimEnd raw) blanks
    rw [← hblanks] at h
    exact ⟨h, fun e he => by cases he⟩

/-- The parts of a binding stand behind its opener and before its closer. -/
theorem stands_delimited (offset : Nat) (kind : BindingKind) (run inner : List Char) :
    (delimited offset kind run inner).expression.Stands (offset + 2) (run ++ inner) ∧
      ∀ e ∈ (delimited offset kind run inner).event, e.Stands (offset + 2) (run ++ inner) := by
  have h := stands_inside (offset + size (kind.opener ++ run)) inner
  rw [size_append, size_opener, ← Nat.add_assoc] at h
  unfold delimited
  rw [size_append, size_opener, ← Nat.add_assoc]
  exact ⟨h.1.append_left, fun e he => (h.2 e he).append_left⟩

/-- The expression of the first binding of a text stands in front of what follows the binding. -/
theorem stands_next? (h : next? offset cs = some (b, rest)) :
    ∃ before, cs = before ++ rest ∧ b.expression.Stands offset before := by
  obtain ⟨skipped, text, run, inner, rfl, -, hdelimits, hb⟩ := exists_of_next? h
  have hexpression := (stands_delimited (offset + size skipped) b.kind run inner).1
  rw [← hb, ← size_opener b.kind] at hexpression
  refine ⟨skipped ++ (b.kind.opener ++ (run ++ inner)) ++ b.kind.closer, by simp [hdelimits.eq], ?_⟩
  exact hexpression.append_left.append_left.append_right _

/-- A binding of a text is described by the delimiters, the run and the inner text where it stands. -/
theorem exists_of_mem_scan (h : b ∈ scan offset cs) : ∃ front run inner back,
    cs = front ++ (b.kind.opener ++ run ++ inner ++ b.kind.closer) ++ back ∧
      LongestRun run (inner ++ (b.kind.closer ++ back)) ∧ b = delimited (offset + size front) b.kind run inner := by
  fun_induction scan offset cs with
  | case1 offset cs b' rest hnext _ ih =>
    rcases List.mem_cons.1 h with rfl | h
    · obtain ⟨skipped, text, run, inner, rfl, -, hdelimits, hb⟩ := exists_of_next? hnext
      have hrun := hdelimits.run
      rw [List.append_assoc] at hrun
      exact ⟨skipped, run, inner, rest, by simp [hdelimits.eq], hrun, hb⟩
    · obtain ⟨before, rfl, -⟩ := stands_next? hnext
      obtain ⟨front, run, inner, back, rfl, hrun, hb⟩ := ih h
      rw [size_append before, Nat.add_sub_cancel, Nat.add_assoc, ← size_append] at hb
      exact ⟨before ++ front, run, inner, back, by simp, hrun, hb⟩
  | case2 => cases h

/-- The expressions and events of the bindings of a text stand in it. -/
theorem stands_parts_scan (h : b ∈ scan offset cs) :
    b.expression.Stands offset cs ∧ ∀ e ∈ b.event, e.Stands offset cs := by
  obtain ⟨front, run, inner, back, rfl, -, hb⟩ := exists_of_mem_scan h
  have hparts := stands_delimited (offset + size front) b.kind run inner
  rw [← hb, ← size_opener b.kind] at hparts
  rw [List.append_assoc b.kind.opener]
  have outward {p : Piece} (hp : p.Stands (offset + size front + size b.kind.opener) (run ++ inner)) :
      p.Stands offset (front ++ (b.kind.opener ++ (run ++ inner) ++ b.kind.closer) ++ back) :=
    (hp.append_left.append_right b.kind.closer).append_left.append_right back
  exact ⟨outward hparts.1, fun e he => outward (hparts.2 e he)⟩

theorem stands_scan (h : b ∈ scan offset cs) : b.expression.Stands offset cs :=
  (stands_parts_scan h).1

theorem stands_event_scan {e : Piece} (h : b ∈ scan offset cs) (he : e ∈ b.event) : e.Stands offset cs :=
  (stands_parts_scan h).2 e he

/-- A binding takes the bytes of its delimiters. -/
theorem four_le_size_of_mem_scan (h : b ∈ scan offset cs) : 4 ≤ size cs := by
  obtain ⟨front, run, inner, back, rfl, -, -⟩ := exists_of_mem_scan h
  simp only [size_append, size_opener, size_closer]
  omega

/-- The delimiter of a binding stands between the blanks at the start of a text and the expression. -/
theorem lead_lt_of_mem_scan (hfit : offset + size cs < UInt32.size) (h : b ∈ scan offset cs) :
    offset + lead cs < b.expression.span.start := by
  obtain ⟨front, run, inner, back, rfl, -, hb⟩ := exists_of_mem_scan h
  simp only [size_append, size_opener] at hfit
  have hlead : lead (front ++ (b.kind.opener ++ run ++ inner ++ b.kind.closer) ++ back) ≤ size front := by
    rw [List.append_assoc]
    cases b.kind <;> exact lead_append_le (by decide)
  have hexpression := (stands_delimited (offset + size front) b.kind run inner).1.start_le
    (by simp only [size_append]; omega)
  rw [← hb] at hexpression
  omega

theorem stop_lt_of_mem_scan (hfit : offset + size cs < UInt32.size) (h : b ∈ scan offset cs) :
    b.expression.span.stop < offset + size cs := by
  obtain ⟨front, run, inner, back, rfl, -, hb⟩ := exists_of_mem_scan h
  simp only [size_append, size_opener, size_closer] at hfit ⊢
  have hexpression := (stands_delimited (offset + size front) b.kind run inner).1.stop_le
    (by simp only [size_append]; omega)
  rw [← hb] at hexpression
  simp only [size_append] at hexpression
  omega

end Binding

/-! ### Calls -/

theorem commaParts_ne_nil (state : QuoteState) (cs : List Char) : commaParts state cs ≠ [] := by
  unfold commaParts
  split
  · simp
  · split
    · simp
    · split <;> simp

/-- The commas put the parts of a text together again. -/
theorem intercalate_commaParts (state : QuoteState) (cs : List Char) :
    [','].intercalate (commaParts state cs) = cs := by
  induction cs generalizing state with
  | nil => rfl
  | cons c cs ih =>
    rw [commaParts]
    split
    · next hc =>
      rw [List.intercalate_cons_of_ne_nil (commaParts_ne_nil _ _), ih, hc.2]
      rfl
    · split
      · next part parts hparts =>
        have hrest := ih (state.step c)
        rw [hparts] at hrest
        cases parts with
        | nil => simpa using hrest
        | cons part' parts => simpa [List.intercalate_cons_cons] using hrest
      · next hparts => exact absurd hparts (commaParts_ne_nil _ _)

theorem stands_locateParts {p : Piece} {start : Nat} {parts : List (List Char)}
    (h : p ∈ locateParts start parts) : p.Stands start ([','].intercalate parts) := by
  induction parts generalizing start with
  | nil => cases h
  | cons part parts ih =>
    have hrest (h : p ∈ locateParts (start + size part + 1) parts) :
        p.Stands start ([','].intercalate (part :: parts)) := by
      cases parts with
      | nil => cases h
      | cons part' parts =>
        rw [List.intercalate_cons_cons, List.append_assoc]
        refine Piece.Stands.append_left (Piece.Stands.append_left ?_)
        exact ih h
    simp only [locateParts] at h
    split at h
    · exact hrest h
    · rcases List.mem_cons.1 h with rfl | h
      · cases parts with
        | nil => simpa using Piece.stands_trimmedAt start part
        | cons part' parts =>
          rw [List.intercalate_cons_cons, List.append_assoc]
          exact (Piece.stands_trimmedAt start part).append_right _
      · exact hrest h

/-- A call is its name, what stands before its arguments, the arguments and a parenthesis. -/
theorem append_of_callParts? {cs name args : List Char} (h : callParts? cs = some (name, args)) :
    ∃ between, cs = name ++ between ++ args ++ [')'] ∧ between ≠ [] := by
  simp only [callParts?, Option.bind_eq_bind, Option.bind_eq_some_iff] at h
  obtain ⟨_, _, h⟩ := h
  split at h
  · next inner hinner =>
    simp only [Option.bind_eq_some_iff, Option.guard_eq_some', Option.pure_def, Option.some.injEq,
      Prod.mk.injEq] at h
    obtain ⟨_, hlast, rfl, rfl⟩ := h
    refine ⟨(cs.dropWhile fun c => continuesName c || c == '.').takeWhile isBlank ++ ['('], ?_, by simp⟩
    have hclose := List.dropLast_append_getLast? _ hlast
    have hblanks := takeWhile_append_trimStart (cs.dropWhile fun c => continuesName c || c == '.')
    rw [hinner] at hblanks
    rw [List.append_assoc, List.append_assoc, hclose, List.append_assoc, List.singleton_append,
      hblanks, List.takeWhile_append_dropWhile]
  · cases h

namespace Expression
variable {p q : Piece} {args : List Argument} {start : Nat} {cs : List Char}

theorem stands_path (hp : p.Stands start cs) (h : ofPiece p = .path q) : q.Stands start cs := by
  simp only [ofPiece] at h
  split at h
  · cases h
  · split at h
    · cases h
    · obtain rfl := Expression.path.inj h
      exact hp.withoutSuffix.trans hp

theorem stands_argument (hp : p.Stands start cs) (h : Argument.ofPiece p = .path q) :
    q.Stands start cs := by
  rw [Argument.ofPiece] at h
  split at h
  · cases h
  · obtain rfl := Argument.path.inj h
    exact hp.withoutSuffix.trans hp

/-- A call is read from its name, from what stands before its arguments, and from the arguments. -/
theorem parts_of_call (h : ofPiece p = .call q args) :
    ∃ name between inner, p.text.toList = name ++ between ++ inner ++ [')'] ∧ between ≠ [] ∧
      q = .located p.span.start name ∧
      args = (splitArguments inner (p.span.start + size (name ++ between))).map Argument.ofPiece := by
  simp only [ofPiece] at h
  split at h
  · cases h
  · split at h
    · next name inner hparts =>
      obtain ⟨rfl, rfl⟩ := Expression.call.inj h
      obtain ⟨between, hcs, hne⟩ := append_of_callParts? hparts
      have hstart : size p.text.toList - size inner - 1 = size (name ++ between) := by
        rw [hcs]
        simp only [size_append, size_cons, size_nil]
        have : (')' : Char).utf8Size = 1 := rfl
        omega
      exact ⟨name, between, inner, hcs, hne, rfl, by rw [hstart]⟩
    · cases h

/-- The name of a call and the paths among its arguments. -/
theorem stands_call (hp : p.Stands start cs) (h : ofPiece p = .call q args) :
    q.Stands start cs ∧ ∀ a, .path a ∈ args → a.Stands start cs := by
  obtain ⟨name, between, inner, hcs, -, rfl, rfl⟩ := parts_of_call h
  refine ⟨?_, fun a ha => ?_⟩
  · have hname : p.text.toList = name ++ (between ++ inner ++ [')']) := by simp [hcs]
    exact (Piece.stands_located_stem hname).trans hp
  · obtain ⟨b, hb, hba⟩ := List.mem_map.1 ha
    have hinner := stands_locateParts hb
    rw [intercalate_commaParts] at hinner
    have hp' : b.Stands p.span.start p.text.toList := hcs ▸ hinner.append_left.append_right [')']
    exact (stands_argument hp' hba).trans hp

end Expression

end Relabel
