import Relabel.Proofs.Binding.Standing

/-!
# The reference scan of bindings

The bindings of a text by their description: each is at the leftmost place behind the one before it that
opens a binding, and behind the last one no place does (`Scanned`). The scan of a value is the one list that
is described so, and the parts of its bindings stand where they say (`scanned_findAll`).
-/

namespace Relabel.Binding
open Text
variable {offset base : Nat} {cs : List Char} {b : Binding} {bs : List Binding}

/-- The bindings of a text that begins at `offset`, from the leftmost place that opens one to the last. -/
inductive Scanned : Nat → List Char → List Binding → Prop where
  | none {offset : Nat} {cs : List Char} (h : ∀ u v, cs = u ++ v → ¬ Opens v) : Scanned offset cs []
  | next {offset : Nat} {skipped text run inner back : List Char} {b : Binding} {bs : List Binding}
    (barren : Barren skipped text) (delimits : Delimits b.kind run inner back text)
    (describes : Describes (offset + size skipped) run inner b)
    (rest : Scanned (offset + size skipped + size (b.kind.opener ++ run ++ inner ++ b.kind.closer)) back bs) :
    Scanned offset (skipped ++ text) (b :: bs)

/-- What follows a binding begins where its closer ends. -/
theorem Delimits.size_sub {kind : BindingKind} {skipped text run inner back : List Char}
    (h : Delimits kind run inner back text) (offset : Nat) :
    offset + (size (skipped ++ text) - size back) =
      offset + size skipped + size (kind.opener ++ run ++ inner ++ kind.closer) := by
  rw [h.eq]
  simp only [size_append]
  omega

theorem scanned_scan (offset : Nat) (cs : List Char) : Scanned offset cs (scan offset cs) := by
  fun_induction scan offset cs with
  | case1 offset cs b rest hnext _ ih =>
    obtain ⟨skipped, text, run, inner, rfl, hbarren, hdelimits, hb⟩ := exists_of_next? hnext
    have hrun := hdelimits.run
    rw [List.append_assoc] at hrun
    rw [hdelimits.size_sub] at ih ⊢
    exact .next hbarren hdelimits (hb ▸ describes_delimited hrun) ih
  | case2 offset cs hnext => exact .none (next?_eq_none_iff.1 hnext)

theorem Scanned.eq_scan (h : Scanned offset cs bs) : bs = scan offset cs := by
  induction h with
  | none h => rw [scan_of_next?_none (next?_eq_none_iff.2 h)]
  | @next offset skipped text run inner back b bs hbarren hdelimits hdescribes _ ih =>
    have hrun := hdelimits.run
    rw [List.append_assoc] at hrun
    have hnext := @next?_of_delimits _ _ _ _ offset _ _ hbarren hdelimits
    rw [← hdescribes.eq_delimited hrun] at hnext
    rw [scan_of_next? hnext, hdelimits.size_sub, ih]

/-- A binding whose expression and event have no blanks at their ends. -/
structure IsTrimmed (b : Binding) : Prop where
  expression : IsTrim b.expression.text.toList
  event : ∀ e ∈ b.event, IsTrim e.text.toList

/-- A binding whose parts stand in a text that begins at `base`. -/
structure StandsIn (base : Nat) (cs : List Char) (b : Binding) : Prop where
  outer : base ≤ b.outer.start ∧ ∃ run inner,
    slice? cs ⟨b.outer.start - base, b.outer.stop - base⟩ = some (b.kind.opener ++ run ++ inner ++ b.kind.closer)
  expression : base ≤ b.expression.span.start ∧
    slice? cs ⟨b.expression.span.start - base, b.expression.span.stop - base⟩ = some b.expression.text.toList
  event : ∀ e ∈ b.event, base ≤ e.span.start ∧
    slice? cs ⟨e.span.start - base, e.span.stop - base⟩ = some e.text.toList

theorem isTrim_inside {run inner xs : List Char} (h : LongestRun run (inner ++ xs)) (start : Nat) :
    IsTrim (inside start inner).1.text.toList ∧ ∀ e ∈ (inside start inner).2, IsTrim e.text.toList := by
  unfold inside
  split
  · next expression event hcut =>
    rw [eq_append_of_cut? hcut, List.append_assoc, List.append_assoc] at h
    rw [← h.trim_eq, Piece.toList_text_located]
    refine ⟨isTrim_trim expression, fun e he => ?_⟩
    obtain rfl := Option.some.inj he
    rw [Piece.trimmedAt, Piece.toList_text_located]
    exact isTrim_trim event
  · rw [← h.trim_eq, Piece.toList_text_located]
    exact ⟨isTrim_trim inner, fun e he => by cases he⟩

theorem isTrimmed_of_mem_scan (h : b ∈ scan base cs) : b.IsTrimmed := by
  obtain ⟨front, run, inner, back, rfl, hrun, hb⟩ := exists_of_mem_scan h
  obtain ⟨hexpression, hevent⟩ := isTrim_inside hrun (base + size front + size (b.kind.opener ++ run))
  rw [hb]
  exact ⟨hexpression, hevent⟩

theorem standsIn_of_mem_scan (hfit : base + size cs < UInt32.size) (h : b ∈ scan base cs) :
    b.StandsIn base cs := by
  refine ⟨?_, ⟨(stands_scan h).start_le hfit, (stands_scan h).slice?_sub hfit⟩, fun e he =>
    ⟨(stands_event_scan h he).start_le hfit, (stands_event_scan h he).slice?_sub hfit⟩⟩
  obtain ⟨front, run, inner, back, rfl, -, hb⟩ := exists_of_mem_scan h
  have houter : b.outer = (Piece.located (base + size front) (b.kind.opener ++ run ++ inner ++ b.kind.closer)).span :=
    congrArg Binding.outer hb
  have hstands := Piece.stands_located base front (b.kind.opener ++ run ++ inner ++ b.kind.closer) back
  rw [houter]
  refine ⟨hstands.start_le hfit, run, inner, ?_⟩
  rw [hstands.slice?_sub hfit, Piece.toList_text_located]

/-- The bindings found in a value are the ones that the reference scan takes, and no others. If the value
ends below the last word, their parts are what it has at their spans. -/
theorem scanned_findAll (value : String) (base : Nat) :
    (∀ bs, Scanned base value.toList bs ↔ bs = findAll value base) ∧
      (∀ b ∈ findAll value base, b.IsTrimmed) ∧
        (base + size value.toList < UInt32.size → ∀ b ∈ findAll value base, b.StandsIn base value.toList) := by
  refine ⟨fun bs => ⟨Scanned.eq_scan, ?_⟩, fun b => isTrimmed_of_mem_scan, fun hfit b => standsIn_of_mem_scan hfit⟩
  rintro rfl
  exact scanned_scan base value.toList

/-- An opener without closer in front of a binding with an event, at the last bytes that have words. -/
theorem scanned_findAll_event :
    4294967270 + size "\x7b\x7b a [[ ! b.c :: d ]]".toList < UInt32.size ∧
      ∃ b, findAll "\x7b\x7b a [[ ! b.c :: d ]]" 4294967270 = [b] ∧
        b.IsTrimmed ∧ b.StandsIn 4294967270 "\x7b\x7b a [[ ! b.c :: d ]]".toList := by
  have hfit : 4294967270 + size "\x7b\x7b a [[ ! b.c :: d ]]".toList < UInt32.size := by decide +kernel
  obtain ⟨b, hb⟩ : ∃ b, findAll "\x7b\x7b a [[ ! b.c :: d ]]" 4294967270 = [b] := by
    refine ⟨⟨.oneWay, true, ⟨"b.c", ⟨4294967280, 4294967283⟩⟩, some ⟨"d", ⟨4294967287, 4294967288⟩⟩,
      ⟨4294967275, 4294967291⟩⟩, ?_⟩
    decide +kernel
  obtain ⟨-, htrimmed, hstands⟩ := scanned_findAll "\x7b\x7b a [[ ! b.c :: d ]]" 4294967270
  have hmem : b ∈ findAll "\x7b\x7b a [[ ! b.c :: d ]]" 4294967270 := hb ▸ List.mem_singleton_self b
  exact ⟨hfit, b, hb, htrimmed b hmem, hstands hfit b hmem⟩

end Relabel.Binding
