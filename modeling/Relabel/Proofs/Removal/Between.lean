import Relabel.Proofs.Removal.Joined
import Relabel.Proofs.Script.Placement.Statements
import Relabel.Proofs.Splice.Cuts
import Relabel.Removal

/-!
# Fragments between programs

A program is read as statements with gaps between them (`exists_cuts_of_run`). Where all statements on some lines assign
fragments, nothing but a gap is left of these lines without them, and a program behind the gap is read as it was: so
where programs and lines of fragments take turns, the programs are left (`Cleared.of_turns`).
-/

namespace Relabel
open Text

/-- The text `left` is what is left of the text `whole`, which begins at a byte, without the bytes of some spans. -/
def Leaves (start : Nat) (whole left : List Char) (spans : List Span) : Prop :=
  ∃ cuts tail, whole = Cut.whole cuts ++ tail ∧ left = cuts.flatMap Cut.kept ++ tail ∧
    spans = (Cut.edits start cuts).map Edit.span

namespace Leaves
variable {start : Nat} {whole left whole' left' : List Char} {spans spans' : List Span}

theorem all (start : Nat) (cs : List Char) : Leaves start cs cs [] :=
  ⟨[], cs, rfl, rfl, rfl⟩

theorem append (h : Leaves start whole left spans) (h' : Leaves (start + size whole) whole' left' spans') :
    Leaves start (whole ++ whole') (left ++ left') (spans ++ spans') := by
  obtain ⟨cuts, tail, rfl, rfl, rfl⟩ := h
  obtain ⟨cuts', tail', rfl, rfl, rfl⟩ := h'
  cases cuts' with
  | nil => exact ⟨cuts, tail ++ tail', by simp [Cut.whole], by simp, by simp [Cut.edits]⟩
  | cons c cuts' =>
    refine ⟨cuts ++ ⟨tail ++ c.kept, c.gone⟩ :: cuts', tail', by simp [Cut.whole], by simp, ?_⟩
    rw [Cut.edits_append, Cut.edits, Cut.edits]
    simp [Nat.add_assoc]

end Leaves

end Relabel

namespace Relabel.Script
open Text Fragment Reading
variable {s : Sequel} {k : Move} {c c' d : Cursor} {cs ds rest : List Char} {t u : Tree} {ts us ws acc : List Tree}
  {depth n last lo hi : Nat}

/-! ### The statements of a program and the gaps between them -/

/-- In a program that names no interpreter nothing but a gap stands before a token. -/
theorem Sequel.Behind.exists_gap (h : s.Behind last rest) (hs : ∀ ds, s.program ≠ '#' :: '!' :: ds) :
    ∃ cs, Takes last s.program cs ∧ gapRest? .blank cs = some rest := by
  obtain ⟨cs, htakes, hgap | ⟨ds, hds, -⟩⟩ := h
  · exact ⟨cs, htakes, hgap⟩
  · exact absurd hds (hs ds)

/-- From a cursor on a program is read as statements with gaps between them. -/
theorem exists_cuts_of_run (hs : ∀ ds, s.program ≠ '#' :: '!' :: ds)
    (h : (repeatUpTo (programStep depth) n acc).run c = some (ts, d)) :
    c.Sound ∧ ∀ c', s.Alike c c' → ∃ us : List Tree, ts = us.reverse ++ acc ∧
      ((∀ u ∈ us, u.span.start ≤ u.span.stop) → ∃ cuts tail, Takes c.last s.program (Cut.whole cuts ++ tail) ∧
        us.map Tree.span = (Cut.edits c.last cuts).map Edit.span ∧ (∀ x ∈ cuts.head?, c.last + size x.kept = c.start) ∧
        (∀ x ∈ cuts, Passed .blank x.kept) ∧ gapRest? .blank tail = some []) := by
  induction n generalizing acc c with
  | zero => cases h
  | succ n ih =>
    by_cases hstop : c.token = .stop
    · rw [run_repeatUpTo_none (run_programStep_stop hstop acc)] at h
      obtain ⟨rfl, rfl⟩ := Prod.mk.inj (Option.some.inj h)
      refine ⟨.stop hstop, fun c' ha => ⟨[], rfl, fun _ => ?_⟩⟩
      cases ha with
      | inside hc ht => exact absurd hstop ht
      | atEnd ht hb hends =>
        obtain ⟨tail, htakes, hgap⟩ := hends.exists_gap hs
        exact ⟨[], tail, htakes, rfl, by simp, by simp, hgap⟩
    · rw [repeatUpTo, StateT.run_bind, run_programStep_of_ne hstop] at h
      cases hrun : (rules depth (.statement .top) { awaits := true }).run c with
      | none => simp [hrun] at h
      | some p =>
        obtain ⟨t, c₁⟩ := p
        rw [hrun] at h
        obtain ⟨hsound, hcuts⟩ := @ih c₁ (t :: acc) h
        have hneeds := needs_rules (s := s) (Nat.le_refl depth) (.statement .top) { awaits := true }
        refine ⟨hneeds.sound trivial hrun hsound, fun c' ha => ?_⟩
        obtain ⟨c₁', -, ha₁⟩ := hneeds.alike ha trivial hrun hsound
        obtain ⟨us, rfl, hus⟩ := hcuts c₁' ha₁
        refine ⟨t :: us, by simp, fun hspans => ?_⟩
        obtain ⟨cuts, tail, htakes, hedits, -, hpassed, htail⟩ := hus fun u hu => hspans u (List.mem_cons_of_mem t hu)
        have hspan := span_of_run_statement hrun
        have hle := hspans t (List.mem_cons_self ..)
        rw [hspan] at hle
        cases ha with
        | atEnd ht hb hends => exact absurd ht hstop
        | inside hc ht =>
          obtain ⟨rest, hne, hbehind, hstart⟩ := hc.behind
          obtain ⟨xs, hxs, hgap⟩ := hbehind.exists_gap hs
          obtain ⟨g, hg, rfl⟩ := exists_gap?_of_gapRest? hgap false 0
          obtain ⟨kept, rfl, hkept⟩ := exists_passed hg hne
          obtain ⟨gone, hgone, hlast⟩ := hstart.exists_between htakes hle
          have hsize : c.last + size kept = c.start := by
            have h₁ := hxs.size_eq
            have h₂ := hstart.size_eq
            rw [size_append] at h₁
            omega
          refine ⟨⟨kept, gone⟩ :: cuts, tail, ?_, ?_, ?_, ?_, htail⟩
          · rw [Cut.whole_cons, List.append_assoc, List.append_assoc, ← hgone]
            exact hxs
          · rw [List.map_cons, hspan, hedits, Cut.edits, List.map_cons, hsize, hlast]
          · rintro x hx
            obtain rfl := Option.some.inj hx
            exact hsize
          · intro x hx
            rcases List.mem_cons.1 hx with rfl | hx
            · exact hkept
            · exact hpassed x hx

/-! ### Fragments further back -/

theorem passed_flatMap_kept {cuts : List Cut} (h : ∀ x ∈ cuts, Passed .blank x.kept) :
    Passed .blank (cuts.flatMap Cut.kept) := by
  induction cuts with
  | nil => exact passed_nil
  | cons c cuts ih => exact (h c (List.mem_cons_self ..)).append (ih fun x hx => h x (List.mem_cons_of_mem c hx))

/-- What is left of lines of fragments is a gap. -/
theorem IsReadIn.leaves (h : IsReadIn n ('\n' :: ds) us last) (hle : ∀ u ∈ us, u.span.start ≤ u.span.stop)
    (hpos : ∀ u ∈ us, 0 < u.span.start) :
    ∃ gap, Leaves 0 ('\n' :: ds) ('\n' :: gap) (us.map Tree.span) ∧ gapRest? .blank gap = some [] := by
  let s := Sequel.ofGap ('\n' :: ds) [] rfl
  have hne : ∀ es, '\n' :: ds ≠ '#' :: '!' :: es := by simp
  obtain ⟨d, hrun, -⟩ := h
  obtain ⟨hsound, hcuts⟩ := exists_cuts_of_run (s := s) hne hrun
  obtain ⟨vs, hvs, hus⟩ := hcuts _ (alike_first (by simp [s, Sequel.ofGap]) hsound.ne_invalid)
  obtain rfl : us = vs := by simpa using hvs
  obtain ⟨cuts, tail, htakes, hspans, hstart, hpassed, htail⟩ := hus hle
  have hlast : (Cursor.first ('\n' :: ds)).last = 0 := by
    rw [first_of_ne_hashbang hne, Cursor.last_reading]
  rw [hlast] at htakes hspans hstart
  have hwhole : '\n' :: ds = Cut.whole cuts ++ tail := (Takes.nil _).unique htakes
  have hgap : gapRest? .blank (cuts.flatMap Cut.kept ++ tail) = some [] :=
    (passed_flatMap_kept hpassed tail).trans htail
  obtain ⟨gap, hleft⟩ : ∃ gap, cuts.flatMap Cut.kept ++ tail = '\n' :: gap := by
    cases cuts with
    | nil => exact ⟨ds, hwhole.symm⟩
    | cons c cuts =>
      cases us with
      | nil => cases hspans
      | cons u us =>
        have hkept : u.span.start = size c.kept := by
          have hspan := (List.cons.inj hspans).1
          rw [hspan, Nat.zero_add]
        have hpos := hkept ▸ hpos u (List.mem_cons_self ..)
        cases hc : c.kept with
        | nil => simp [hc] at hpos
        | cons ch kept =>
          rw [Cut.whole_cons, hc] at hwhole
          obtain rfl := (List.cons.inj hwhole).1
          exact ⟨kept ++ (cuts.flatMap Cut.kept ++ tail), by simp [hc]⟩
  refine ⟨gap, ⟨cuts, tail, hwhole, hleft.symm, hspans⟩, ?_⟩
  rwa [hleft, gapRest?_blank (.inl (by decide))] at hgap

theorem bares_append (ts us : List Tree) : Tree.bares (ts ++ us) = Tree.bares ts ++ Tree.bares us := by
  rw [Tree.bares_eq_map, Tree.bares_eq_map, Tree.bares_eq_map, List.map_append]

mutual

theorem bare_shifted : ∀ t : Tree, (t.shifted k).bare = t.bare
  | .node label span children => by rw [Tree.shifted, Tree.bare, Tree.bare, bares_shiftedAll children]

theorem bares_shiftedAll : ∀ ts : List Tree, Tree.bares (Tree.shiftedAll k ts) = Tree.bares ts
  | [] => rfl
  | t :: ts => by rw [Tree.shiftedAll, Tree.bares, Tree.bares, bare_shifted t, bares_shiftedAll ts]

end

theorem unwrapped_shifted (t : Tree) : (t.shifted k).unwrapped = t.unwrapped.shifted k := by
  obtain ⟨label, span, children⟩ := t
  cases label with
  | paren =>
    rcases children with _ | ⟨t, _ | ⟨u, us⟩⟩
    · rfl
    · exact unwrapped_shifted t
    · rfl
  | _ => rfl

theorem isFragmentKey_shifted (t : Tree) : (t.shifted k).isFragmentKey = t.isFragmentKey := by
  obtain ⟨label, span, children⟩ := t
  cases label with
  | element isOptional =>
    match children with
    | [] => rfl
    | [.node label _ _] => cases label <;> rfl
    | .node label _ _ :: .node label' _ _ :: us =>
      cases label with
      | identifier object => cases label' <;> cases us <;> rfl
      | _ => rfl
  | _ => rfl

theorem assignsFragment_shifted (t : Tree) : (t.shifted k).assignsFragment = t.assignsFragment := by
  obtain ⟨label, span, children⟩ := t
  cases label with
  | expressionStatement =>
    rcases children with _ | ⟨⟨label, span, children⟩, _ | ⟨u, us⟩⟩
    · rfl
    · cases label with
      | assignment operator =>
        cases children with
        | nil => rfl
        | cons target values =>
          show (target.shifted k).unwrapped.isFragmentKey = target.unwrapped.isFragmentKey
          rw [unwrapped_shifted, isFragmentKey_shifted]
      | _ => rfl
    · cases label with
      | assignment operator => cases children <;> rfl
      | _ => rfl
  | _ => rfl

mutual

theorem fragmentSpans_shifted : ∀ t : Tree, (t.shifted k).fragmentSpans = t.fragmentSpans.map (shifted k)
  | .node label span children => by
    have hassigns := assignsFragment_shifted (k := k) (.node label span children)
    rw [Tree.shifted] at hassigns ⊢
    rw [Tree.fragmentSpans, Tree.fragmentSpans, hassigns, fragmentSpansOf_shiftedAll children]
    split <;> rfl

theorem fragmentSpansOf_shiftedAll : ∀ ts : List Tree,
    Tree.fragmentSpansOf (Tree.shiftedAll k ts) = (Tree.fragmentSpansOf ts).map (shifted k)
  | [] => rfl
  | t :: ts => by
    rw [Tree.shiftedAll, Tree.fragmentSpansOf, Tree.fragmentSpansOf, fragmentSpans_shifted t,
      fragmentSpansOf_shiftedAll ts, List.map_append]

end

theorem fragmentSpans_program (span : Span) (ts : List Tree) :
    Tree.fragmentSpans (.node .program span ts) = Tree.fragmentSpansOf ts := by
  rw [Tree.fragmentSpans, if_neg]
  exact Bool.false_ne_true

theorem fragmentSpansOf_append (ts us : List Tree) :
    Tree.fragmentSpansOf (ts ++ us) = Tree.fragmentSpansOf ts ++ Tree.fragmentSpansOf us := by
  induction ts with
  | nil => rfl
  | cons t ts ih => rw [List.cons_append, Tree.fragmentSpansOf, Tree.fragmentSpansOf, ih, List.append_assoc]

theorem fragmentSpansOf_of_assigns (h : ∀ u ∈ us, u.assignsFragment = true) :
    Tree.fragmentSpansOf us = us.map Tree.span := by
  induction us with
  | nil => rfl
  | cons u us ih =>
    obtain ⟨label, span, children⟩ := u
    rw [Tree.fragmentSpansOf, Tree.fragmentSpans, if_pos (h _ (List.mem_cons_self ..)),
      ih fun x hx => h x (List.mem_cons_of_mem _ hx)]
    rfl

theorem label_of_assignsFragment (h : t.assignsFragment = true) : t.label = .expressionStatement := by
  rw [Tree.assignsFragment.eq_def] at h
  split at h
  · rfl
  · cases h

/-- Fragments export nothing. -/
theorem flatMap_exportedNames_kept (ws : List Tree) :
    (ws.filter (!·.assignsFragment)).flatMap Tree.exportedNames = ws.flatMap Tree.exportedNames := by
  induction ws with
  | nil => rfl
  | cons w ws ih =>
    cases h : w.assignsFragment with
    | false => rw [List.filter_cons_of_pos (by simp [h]), List.flatMap_cons, List.flatMap_cons, ih]
    | true =>
      have hnone : w.exportedNames = [] :=
        Tree.exportedNames_of_not_isExport (by simp [Tree.isExport, label_of_assignsFragment h])
      rw [List.filter_cons_of_neg (by simp [h]), List.flatMap_cons, hnone, ih, List.nil_append]

theorem AllLie.le_of_assigns (h : AllLie cs lo hi ts) (hu : u ∈ ts) (hassigns : u.assignsFragment = true) :
    u.span.start ≤ u.span.stop := by
  induction ts generalizing lo with
  | nil => cases hu
  | cons t ts ih =>
    obtain ⟨mid, ht, hts⟩ := h
    rcases List.mem_cons.1 hu with rfl | hu
    · obtain ⟨label, span, children⟩ := u
      exact (ht.1 (label_of_assignsFragment hassigns)).le
    · exact ih hts hu

theorem assigns_of_fragmentSpansOf_nil (h : Tree.fragmentSpansOf ts = []) : ∀ u ∈ ts, u.assignsFragment = false := by
  induction ts with
  | nil => nofun
  | cons t ts ih =>
    rw [Tree.fragmentSpansOf, List.append_eq_nil_iff] at h
    intro u hu
    rcases List.mem_cons.1 hu with rfl | hu
    · obtain ⟨label, span, children⟩ := u
      by_contra hassigns
      rw [Tree.fragmentSpans, if_pos (by simpa using hassigns)] at h
      exact List.cons_ne_nil _ _ h.1
    · exact ih h.2 u hu

/-! ### Programs and lines of fragments in turn -/

theorem leaves_shifted {whole left : List Char} {spans : List Span} (h : Leaves 0 whole left spans)
    (hspans : ∀ s ∈ spans, 0 < s.start ∧ s.start ≤ s.stop) (k : Move) :
    Leaves k.back whole left (spans.map (Script.shifted k)) := by
  obtain ⟨cuts, tail, hwhole, hleft, rfl⟩ := h
  refine ⟨cuts, tail, hwhole, hleft, ?_⟩
  have hback := Cut.edits_add 0 k.back cuts
  rw [Nat.zero_add] at hback
  rw [hback]
  refine List.map_congr_left fun s hs => ?_
  obtain ⟨hstart, hle⟩ := hspans s hs
  show Span.mk (k.place s.start) (k.place s.stop) = _
  rw [Move.place_of_pos hstart, Move.place_of_pos (Nat.lt_of_lt_of_le hstart hle)]

/-- The text `whole` is read as the statements `ws`, of which those that assign fragments stand in no other one. Without
them the text is `left`, which is read as the other statements, `ts`, wherever these stand there, and `spare` of the
rounds for its length are not needed. -/
structure Cleared (spare : Nat) (whole left : List Char) (ws ts : List Tree) : Prop where
  whole_read : ∃ n last, IsReadIn n whole ws last
  left_read : ∃ n last, n + spare ≤ left.length + 2 ∧ IsReadIn n left ts last
  leaves : Leaves 0 whole left (Tree.fragmentSpansOf ws)
  spans : Tree.fragmentSpansOf ws = (ws.filter Tree.assignsFragment).map Tree.span
  none : Tree.fragmentSpansOf ts = []
  bare : Tree.bares ts = Tree.bares (ws.filter (!·.assignsFragment))

namespace Cleared
variable {spare : Nat} {whole left : List Char}

theorem of_program (h : IsRead cs ts last) (hnone : Tree.fragmentSpansOf ts = []) : Cleared 0 cs cs ts ts := by
  have hkept := assigns_of_fragmentSpansOf_nil hnone
  refine ⟨⟨_, last, h⟩, ⟨_, last, Nat.le_refl _, h⟩, hnone ▸ .all 0 cs, ?_, hnone, ?_⟩
  · rw [hnone, List.filter_eq_nil_iff.2 fun u hu => by simp [hkept u hu]]
    rfl
  · rw [List.filter_eq_self.2 fun u hu => by simp [hkept u hu]]

/-- Of lines of fragments nothing but a gap is left. -/
theorem fragments {hi : Nat} (h : Cleared spare whole left ws ts) (hds : BeginsAnew ds)
    (hus : IsRead ('\n' :: ds) us last) (hlies : AllLie ('\n' :: ds) 0 hi us)
    (hassigns : ∀ u ∈ us, u.assignsFragment = true) :
    ∃ gap ws', Cleared (spare + 1) (whole ++ '\n' :: ds) (left ++ '\n' :: gap) ws' ts := by
  obtain ⟨⟨n, wlast, hwhole⟩, ⟨m, llast, hm, hleft⟩, hleaves, hspans, hnone, hbare⟩ := h
  have hpos := IsReadIn.start_pos hus hds
  have hle : ∀ u ∈ us, u.span.start ≤ u.span.stop := fun u hu => hlies.le_of_assigns hu (hassigns u hu)
  obtain ⟨gap, hgone, hgap⟩ := IsReadIn.leaves hus hle hpos
  let k : Move := ⟨wlast, size whole⟩
  have hassigns' : ∀ u ∈ Tree.shiftedAll k us, u.assignsFragment = true := by
    intro u hu
    rw [Tree.shiftedAll_eq_map] at hu
    obtain ⟨v, hv, rfl⟩ := List.mem_map.1 hu
    rw [assignsFragment_shifted]
    exact hassigns v hv
  have hgone' : Leaves (size whole) ('\n' :: ds) ('\n' :: gap) (Tree.fragmentSpansOf (Tree.shiftedAll k us)) := by
    rw [fragmentSpansOf_shiftedAll, fragmentSpansOf_of_assigns hassigns]
    refine leaves_shifted hgone (fun s hs => ?_) k
    obtain ⟨u, hu, rfl⟩ := List.mem_map.1 hs
    exact ⟨hpos u hu, hle u hu⟩
  have hgoes : (Tree.shiftedAll k us).filter (!·.assignsFragment) = [] :=
    List.filter_eq_nil_iff.2 fun u hu => by simp [hassigns' u hu]
  refine ⟨gap, ws ++ Tree.shiftedAll k us, ⟨⟨_, _, hwhole.append hus hds (Nat.succ_pos _)⟩,
    ⟨m, llast, ?_, hleft.gap hgap⟩, ?_, ?_, hnone, ?_⟩⟩
  · rw [List.length_append, List.length_cons]
    omega
  · rw [fragmentSpansOf_append]
    exact hleaves.append (by rwa [Nat.zero_add])
  · rw [fragmentSpansOf_append, hspans, fragmentSpansOf_of_assigns hassigns', List.filter_append, List.map_append,
      List.filter_eq_self.2 hassigns']
  · rw [hbare, List.filter_append, hgoes, List.append_nil]

/-- A program is left as it is. -/
theorem behind (h : Cleared (spare + 1) whole left ws ts) (hds : BeginsAnew ds) (hus : IsRead ('\n' :: ds) us last)
    (hnone : Tree.fragmentSpansOf us = []) :
    ∃ ws' ts', Cleared spare (whole ++ '\n' :: ds) (left ++ '\n' :: ds) ws' ts' := by
  obtain ⟨⟨n, wlast, hwhole⟩, ⟨m, llast, hm, hleft⟩, hleaves, hspans, hnone', hbare⟩ := h
  have hnone_shifted (k : Move) : Tree.fragmentSpansOf (Tree.shiftedAll k us) = [] := by
    rw [fragmentSpansOf_shiftedAll, hnone]
    rfl
  let k : Move := ⟨wlast, size whole⟩
  have hassigns := assigns_of_fragmentSpansOf_nil (hnone_shifted k)
  have hkept : (Tree.shiftedAll k us).filter (!·.assignsFragment) = Tree.shiftedAll k us :=
    List.filter_eq_self.2 fun u hu => by simp [hassigns u hu]
  have hgoes : (Tree.shiftedAll k us).filter Tree.assignsFragment = [] :=
    List.filter_eq_nil_iff.2 fun u hu => by simp [hassigns u hu]
  refine ⟨ws ++ Tree.shiftedAll k us, _, ⟨⟨_, _, hwhole.append hus hds (Nat.succ_pos _)⟩,
    ⟨_, _, ?_, hleft.append hus hds (Nat.succ_pos _)⟩, ?_, ?_, ?_, ?_⟩⟩
  · simp only [List.length_append, List.length_cons]
    omega
  · rw [fragmentSpansOf_append, hnone_shifted]
    exact hleaves.append (.all _ _)
  · rw [fragmentSpansOf_append, hnone_shifted, List.append_nil, hspans, List.filter_append, hgoes, List.append_nil]
  · rw [fragmentSpansOf_append, hnone', hnone_shifted]
    rfl
  · rw [List.filter_append, hkept, bares_append, bares_append, hbare, bares_shiftedAll, bares_shiftedAll]

end Cleared

/-- Lines on which nothing but fragments stand, and a program on the lines behind them. -/
structure Turn where
  fragments : String
  program : String

namespace Turn

def text (turn : Turn) : String :=
  "\n" ++ turn.fragments ++ "\n" ++ turn.program

/-- The fragments and the program can be read, each alone, and begin anew behind other lines. -/
structure Stands (turn : Turn) : Prop where
  fragments_begin : BeginsAnew turn.fragments.toList
  fragments_read : ∃ t, read? ("\n" ++ turn.fragments) = some t ∧ ∀ u ∈ t.children, u.assignsFragment = true
  program_begin : BeginsAnew turn.program.toList
  program_read : ∃ t, read? ("\n" ++ turn.program) = some t ∧ t.fragmentSpans = []

end Turn

namespace Cleared
variable {whole left : List Char} {turn : Turn} {turns : List Turn}

theorem of_turn (h : Cleared 0 whole left ws ts) (hturn : turn.Stands) :
    ∃ left' ws' ts', Cleared 0 (whole ++ turn.text.toList) left' ws' ts' := by
  obtain ⟨t, ht, hassigns⟩ := hturn.fragments_read
  obtain ⟨t', ht', hnone⟩ := hturn.program_read
  obtain ⟨hi, hlies⟩ := exists_allLie_of_read? ht
  obtain ⟨us, ulast, stop, hus, rfl, -, -⟩ := exists_isRead ht
  obtain ⟨vs, vlast, stop', hvs, rfl, -, -⟩ := exists_isRead ht'
  have hline (s : String) : ("\n" ++ s).toList = '\n' :: s.toList := by simp
  rw [hline] at hus hvs hlies
  rw [fragmentSpans_program] at hnone
  obtain ⟨gap, ws', hcleared⟩ := h.fragments hturn.fragments_begin hus hlies hassigns
  obtain ⟨ws'', ts', hcleared⟩ := hcleared.behind hturn.program_begin hvs hnone
  have htext : whole ++ turn.text.toList = whole ++ '\n' :: turn.fragments.toList ++ '\n' :: turn.program.toList := by
    simp [Turn.text]
  exact ⟨_, _, _, htext ▸ hcleared⟩

/-- Where programs and lines of fragments take turns, the programs are left. -/
theorem of_turns (h : Cleared 0 whole left ws ts) (hturns : ∀ turn ∈ turns, turn.Stands) :
    ∃ left' ws' ts', Cleared 0 (whole ++ (String.join (turns.map Turn.text)).toList) left' ws' ts' := by
  induction turns generalizing whole left ws ts with
  | nil => exact ⟨left, ws, ts, by simpa using h⟩
  | cons turn turns ih =>
    obtain ⟨left', ws', ts', hturn⟩ := h.of_turn (hturns turn (List.mem_cons_self ..))
    have hrest := ih hturn fun x hx => hturns x (List.mem_cons_of_mem turn hx)
    simpa using hrest

end Cleared

end Relabel.Script
