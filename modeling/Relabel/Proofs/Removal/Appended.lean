import Relabel.Proofs.Fragment.Programs
import Relabel.Proofs.Script.Rules.Extents
import Relabel.Proofs.Script.Rules.Statements

/-!
# Programs that are written behind another one

A program is read the same in front of a line that opens with a word of its own or is empty (`run_longer`): its last
statement ends where it ends alone. So what stands behind a program is read as statements of its own.
-/

namespace Relabel.Script
open Text Fragment Reading
variable {s : Sequel} {c c' d : Cursor} {cs ds : List Char} {ts acc : List Tree} {depth depth' n n' : Nat}

/-! ### First cursors -/

theorem bound_first (cs : List Char) : (Cursor.first cs).bound = cs.length := by
  have hreading (b last offset : Nat) (part : GapPart) (ds : List Char) :
      (Cursor.reading b last offset part ds).bound = b := by
    rw [Cursor.reading]
    cases gap? false offset part ds with
    | none => rfl
    | some g =>
      simp only [Option.bind_eq_bind, Option.bind_some]
      cases lexeme? b g.rest <;> rfl
  rw [Cursor.first.eq_def]
  split <;> rw [hreading]
  rfl

theorem first_hashbang (cs : List Char) :
    Cursor.first ('#' :: '!' :: cs) = .reading (cs.length + 2) 0 2 .lineComment cs := rfl

theorem first_of_ne_hashbang (h : ∀ ds, cs ≠ '#' :: '!' :: ds) :
    Cursor.first cs = .reading cs.length 0 0 .blank cs := by
  rw [Cursor.first.eq_def]
  split
  · exact absurd rfl (h _)
  · rfl

/-- A program begins in front of another line as it begins alone. -/
theorem alike_first (hbound : s.bound = (s.program ++ '\n' :: s.text).length)
    (h : (Cursor.first s.program).token ≠ .invalid) :
    s.Alike (.first s.program) (.first (s.program ++ '\n' :: s.text)) := by
  have hle : s.program.length ≤ s.bound := by simp [hbound]
  by_cases hhash : ∃ ds, s.program = '#' :: '!' :: ds
  · obtain ⟨ds, hds⟩ := hhash
    have hlength : (ds ++ '\n' :: s.text).length + 2 = s.bound := by simp [hbound, hds]
    have htakes : Takes 2 s.program ds := ⟨['#', '!'], hds, rfl⟩
    rw [hds, first_hashbang] at h ⊢
    rw [List.cons_append, List.cons_append, first_hashbang, hlength]
    refine Sequel.reading_longer h htakes (fun _ hgap => ?_) (by omega) ?_
    · exact ⟨s.program, .nil s.program, .inr ⟨ds, hds, rfl, hgap⟩⟩
    · rw [hds] at hle
      exact hle
  · have hne : ∀ ds, s.program ++ '\n' :: s.text ≠ '#' :: '!' :: ds := by
      intro ds hds
      cases hprogram : s.program with
      | nil => simp [hprogram] at hds
      | cons x xs =>
        cases xs with
        | nil => simp [hprogram] at hds
        | cons y ys =>
          simp only [hprogram, List.cons_append, List.cons.injEq] at hds
          exact hhash ⟨ys, by rw [hprogram, hds.1, hds.2.1]⟩
    rw [first_of_ne_hashbang fun ds hds => hhash ⟨ds, hds⟩] at h ⊢
    rw [first_of_ne_hashbang hne, ← hbound]
    exact Sequel.reading_longer h (.nil s.program) (fun _ hgap => ⟨_, .nil _, .inl hgap⟩)
      (Nat.le_refl _) hle

/-! ### Rounds -/

theorem run_programStep_stop (h : c.token = .stop) (acc : List Tree) :
    (programStep depth acc).run c = some (none, c) := by
  simp [programStep, h]

theorem run_programStep_of_ne (h : c.token ≠ .stop) (acc : List Tree) :
    (programStep depth acc).run c =
      ((rules depth (.statement .top) { awaits := true }).run c).map fun (t, d) => (some (t :: acc), d) := by
  simp [programStep, h]

theorem run_longer (hdepth : depth ≤ depth')
    (h : (repeatUpTo (programStep depth) n acc).run c = some (ts, d)) :
    c.Sound ∧ ∀ c' n', s.Alike c c' → n ≤ n' → s.Ends d.last ∧ ∃ k, n' < k + n ∧
      (repeatUpTo (programStep depth') n' acc).run c' =
        (repeatUpTo (programStep depth') k ts).run (s.entry d.last) := by
  induction n generalizing acc c with
  | zero => cases h
  | succ n ih =>
    by_cases hstop : c.token = .stop
    · rw [run_repeatUpTo_none (run_programStep_stop hstop acc)] at h
      obtain ⟨rfl, rfl⟩ := Prod.mk.inj (Option.some.inj h)
      refine ⟨.stop hstop, fun c' n' ha hn => ?_⟩
      cases ha with
      | inside hc ht => exact absurd hstop ht
      | atEnd ht hb hends => exact ⟨hends, n', by omega, rfl⟩
    · rw [repeatUpTo, StateT.run_bind, run_programStep_of_ne hstop] at h
      cases hrun : (rules depth (.statement .top) { awaits := true }).run c with
      | none => simp [hrun] at h
      | some p =>
        obtain ⟨t, c₁⟩ := p
        rw [hrun] at h
        obtain ⟨hsound, hlonger⟩ := @ih c₁ (t :: acc) h
        have hneeds := needs_rules (s := s) hdepth (.statement .top) { awaits := true }
        refine ⟨hneeds.sound trivial hrun hsound, fun c' n' ha hn => ?_⟩
        obtain ⟨n', rfl⟩ : ∃ k, n' = k + 1 := ⟨n' - 1, by omega⟩
        obtain ⟨c₁', hrun', ha₁⟩ := hneeds.alike ha trivial hrun hsound
        obtain ⟨hends, k, hk, heq⟩ := hlonger c₁' n' ha₁ (by omega)
        have hne : c'.token ≠ .stop := by
          cases ha with
          | inside hc ht => exact ht
          | atEnd ht hb hends => exact absurd ht hstop
        have hstep : (programStep depth' acc).run c' = some (some (t :: acc), c₁') := by
          rw [run_programStep_of_ne hne, hrun']
          rfl
        exact ⟨hends, k, by omega, by rw [run_repeatUpTo_some hstep, heq]⟩

/-- The statements that a program is read as in some rounds, and where the last of them ends. -/
def IsReadIn (n : Nat) (cs : List Char) (ts : List Tree) (last : Nat) : Prop :=
  ∃ d, (repeatUpTo (programStep (5 * cs.length + 8)) n []).run (.first cs) = some (ts.reverse, d) ∧ d.last = last

/-- The statements that a program is read as, and where the last of them ends. -/
def IsRead (cs : List Char) (ts : List Tree) (last : Nat) : Prop :=
  IsReadIn (cs.length + 2) cs ts last

theorem IsReadIn.mono {last : Nat} (h : IsReadIn n cs ts last) (hn : n ≤ n') : IsReadIn n' cs ts last := by
  obtain ⟨d, hrun, hd⟩ := h
  exact ⟨d, run_repeatUpTo_mono hn hrun, hd⟩

theorem IsReadIn.unique {us : List Tree} {last last' : Nat} (h : IsReadIn n cs ts last) (h' : IsReadIn n' cs us last') :
    ts = us ∧ last = last' := by
  obtain ⟨d, hrun, rfl⟩ := h.mono (Nat.le_max_left n n')
  obtain ⟨d', hrun', rfl⟩ := h'.mono (Nat.le_max_right n n')
  obtain ⟨hts, rfl⟩ := Prod.mk.inj (Option.some.inj (hrun.symm.trans hrun'))
  exact ⟨List.reverse_injective hts, rfl⟩

theorem program_run (cs : List Char) :
    program.run (.first cs) =
      ((repeatUpTo (programStep (5 * cs.length + 8)) (cs.length + 2) []).run (.first cs)).map
        fun (ts, d) => (.node .program ⟨0, d.stop⟩ ts.reverse, d) := by
  rw [program_eq, Option.map_eq_bind]
  simp [run_iterate, bound_first]

theorem exists_isRead {text : String} {t : Tree} (h : read? text = some t) :
    ∃ ts last stop, IsRead text.toList ts last ∧ t = .node .program ⟨0, stop⟩ ts ∧ t.isSettled = true ∧
      t.exportsOnce = true := by
  rw [read?, program_run] at h
  cases hrun : (repeatUpTo (programStep (5 * text.toList.length + 8)) (text.toList.length + 2) []).run
      (.first text.toList) with
  | none => simp [hrun] at h
  | some p =>
    obtain ⟨ts, d⟩ := p
    rw [hrun] at h
    simp [Option.bind_eq_some_iff] at h
    obtain ⟨⟨hsettled, hexports⟩, rfl⟩ := h
    exact ⟨ts.reverse, d.last, d.stop, ⟨d, by rw [List.reverse_reverse]; exact hrun, rfl⟩, rfl, hsettled, hexports⟩

/-- Where a program ends matters to none of the checks on it. -/
theorem IsRead.read? {text : String} {last : Nat} {span : Span} (h : IsRead text.toList ts last)
    (hsettled : (Tree.node .program span ts).isSettled = true) (hexports : (Tree.node .program span ts).exportsOnce = true) :
    ∃ stop, Script.read? text = some (.node .program ⟨0, stop⟩ ts) := by
  obtain ⟨d, hrun, rfl⟩ := h
  have hsettled : (Tree.node .program ⟨0, d.stop⟩ ts).isSettled = true := by
    rwa [Tree.isSettled_node] at hsettled ⊢
  have hexports : (Tree.node .program ⟨0, d.stop⟩ ts).exportsOnce = true := hexports
  exact ⟨d.stop, by simp [Script.read?, program_run, hrun, hsettled, hexports]⟩

/-! ### Lines -/

/-- What follows a program is read from the first token of the other line on, in the rounds that are left. -/
theorem IsReadIn.longer {last : Nat} (h : IsReadIn n s.program ts last)
    (hbound : s.bound = (s.program ++ '\n' :: s.text).length) (hn : n ≤ n') :
    s.Ends last ∧ ∃ k, n' < k + n ∧
      (repeatUpTo (programStep (5 * s.bound + 8)) n' []).run (.first (s.program ++ '\n' :: s.text)) =
        (repeatUpTo (programStep (5 * s.bound + 8)) k ts.reverse).run (s.entry last) := by
  obtain ⟨d, hrun, rfl⟩ := h
  have hlength : s.bound = s.program.length + s.text.length + 1 := by
    rw [hbound, List.length_append, List.length_cons, Nat.add_assoc]
  have hdepth : 5 * s.program.length + 8 ≤ 5 * s.bound + 8 := by omega
  obtain ⟨hsound, hlonger⟩ := run_longer (s := s) hdepth hrun
  exact hlonger _ n' (alike_first hbound hsound.ne_invalid) hn

theorem IsRead.longer {last : Nat} (h : IsRead s.program ts last)
    (hbound : s.bound = (s.program ++ '\n' :: s.text).length) :
    s.Ends last ∧ ∃ k, s.text.length + 1 < k ∧
      (repeatUpTo (programStep (5 * s.bound + 8)) (s.bound + 2) []).run (.first (s.program ++ '\n' :: s.text)) =
        (repeatUpTo (programStep (5 * s.bound + 8)) k ts.reverse).run (s.entry last) := by
  have hlength : s.bound = s.program.length + s.text.length + 1 := by
    rw [hbound, List.length_append, List.length_cons, Nat.add_assoc]
  obtain ⟨hends, k, hk, heq⟩ := IsReadIn.longer h hbound (show s.program.length + 2 ≤ s.bound + 2 by omega)
  exact ⟨hends, k, by omega, heq⟩

theorem token_reading_of_gap (h : gapRest? .blank ds = some []) (b last offset : Nat) :
    (Cursor.reading b last offset .blank ds).token = .stop := by
  obtain ⟨g, hg, hrest⟩ := exists_gap?_of_gapRest? h false offset
  rw [Cursor.reading, hg]
  simp [hrest, lexeme?]

/-- A program and a line with nothing but a gap. -/
def Sequel.ofGap (cs ds : List Char) (h : gapRest? .blank ds = some []) : Sequel where
  program := cs
  text := ds
  bound := cs.length + ds.length + 1
  opens _ := .inl (token_reading_of_gap h ..)

/-- A gap behind a program changes nothing. -/
theorem IsReadIn.gap {last : Nat} (h : IsReadIn n cs ts last) (hgap : gapRest? .blank ds = some []) :
    IsReadIn n (cs ++ '\n' :: ds) ts last := by
  have hlength : (Sequel.ofGap cs ds hgap).bound = (cs ++ '\n' :: ds).length := by
    simp [Sequel.ofGap, Nat.add_assoc]
  obtain ⟨-, k, hk, heq⟩ := IsReadIn.longer (s := .ofGap cs ds hgap) h hlength (Nat.le_refl n)
  obtain ⟨k, rfl⟩ : ∃ n, k = n + 1 := ⟨k - 1, by omega⟩
  have hstop : ((Sequel.ofGap cs ds hgap).entry last).token = .stop := token_reading_of_gap hgap ..
  rw [run_repeatUpTo_none (run_programStep_stop hstop _), hlength] at heq
  exact ⟨(Sequel.ofGap cs ds hgap).entry last, heq, Sequel.entry_last _ _⟩

theorem IsRead.gap {last : Nat} (h : IsRead cs ts last) (hgap : gapRest? .blank ds = some []) :
    IsRead (cs ++ '\n' :: ds) ts last :=
  (IsReadIn.gap h hgap).mono (by rw [List.length_append]; omega)

theorem IsRead.newline {last : Nat} (h : IsRead cs ts last) : IsRead (cs ++ ['\n']) ts last :=
  h.gap rfl

theorem IsRead.ends {last : Nat} (h : IsRead cs ts last) : ∃ rest, Takes last cs rest ∧ IsGap rest :=
  (IsRead.longer (s := .ofGap cs [] rfl) h (by simp [Sequel.ofGap])).1.exists_isGap

/-! ### A line with a statement -/

/-- A line that begins with no blank has its first token at its start. -/
theorem start_reading {b last offset : Nat} {ch : Char} (hink : isInk ch = true)
    (h : (Cursor.reading b last offset .blank (ch :: cs)).token ≠ .invalid) :
    (Cursor.reading b last offset .blank (ch :: cs)).start = offset := by
  obtain ⟨g, l, hg, -, hreading⟩ := Cursor.reading_of_ne_invalid h
  obtain ⟨k, hk, htakes⟩ := takes_gap? hg
  obtain ⟨o, ho⟩ := @gapTo_of_isInk cs _ hink false offset
  rw [hg] at ho
  have hrest : g.rest = ch :: cs := congrArg Gap.rest (Option.some.inj ho)
  have hsize := htakes.size_eq
  rw [hrest] at hsize
  rw [hreading]
  show g.offset = offset
  omega

theorem reading_isName {w : String} {rest : List Char} {b : Nat} (h : isName w = true) (hends : EndsName rest)
    (hb : (w.toList ++ rest).length ≤ b) (last offset : Nat) :
    (Cursor.reading b last offset .blank (w.toList ++ rest)).token = .name w false ∧
      (Cursor.reading b last offset .blank (w.toList ++ rest)).start = offset := by
  obtain ⟨size, hlexeme⟩ := lexeme?_isName h hb hends
  obtain ⟨c, cs, hw, -, hall⟩ := chars_of_isName h
  have hink : isInk c = true := isInk_of_continuesName (hall c (List.mem_cons_self ..))
  rw [hw, List.cons_append] at hlexeme ⊢
  obtain ⟨o, hgap⟩ : ∃ o, gap? false offset .blank (c :: (cs ++ rest)) = some ⟨false, o, c :: (cs ++ rest)⟩ :=
    gapTo_of_isInk hink false offset
  have htoken : (Cursor.reading b last offset .blank (c :: (cs ++ rest))).token = .name w false := by
    simp [Cursor.reading, hgap, hlexeme]
  exact ⟨htoken, start_reading hink fun h => by cases htoken.symm.trans h⟩

theorem Starts.onNewLine {t : Token} {ts : List Token} (h : Starts (t :: ts) c) (ht : t ≠ .mark "++") :
    Starts (t :: ts) { c with newline := true } :=
  ⟨h.1, fun hplus => absurd hplus ht, h.2.2⟩

/-- Behind a program a line with a statement is read as that statement. -/
theorem IsRead.line {a : Item} {us : List Token} {ch : Char} {last : Nat} (h : IsRead cs ts last)
    (htokens : a.tokens = .name "window" false :: us) (hstands : Stands true a) (hink : isInk ch = true)
    (hspells : Spells (ch :: ds) a.tokens fun _ => True) :
    ∃ t last', IsRead (cs ++ '\n' :: ch :: ds) (ts ++ [t]) last' ∧ t.bare = a.tree ∧
      t.span = ⟨size cs + 1, last'⟩ := by
  have hstarts (b last : Nat) (hb : (ch :: ds).length ≤ b) :
      Starts (a.tokens ++ [.stop]) (.reading b last (size cs + 1) .blank (ch :: ds)) := by
    have hlexes := hspells.lexes b [] [.stop] (by rwa [List.append_nil]) trivial (by simp) lexes_stop
    rw [List.append_nil] at hlexes
    exact hlexes.starts last
  have hfirst : a.tokens ++ [.stop] = .name "window" false :: (us ++ [.stop]) := by
    rw [htokens]
    rfl
  let b := (cs ++ '\n' :: ch :: ds).length
  have hle : (ch :: ds).length ≤ b := by simp [b]; omega
  have htoken (last : Nat) : (Cursor.reading b last (size cs + 1) .blank (ch :: ds)).token = .name "window" false := by
    have hread := hstarts b last hle
    rw [hfirst] at hread
    exact hread.token
  let s : Sequel := ⟨cs, ch :: ds, b, fun last => .inr ⟨"window", by decide, htoken last⟩⟩
  obtain ⟨-, k, hk, heq⟩ := IsRead.longer (s := s) h rfl
  obtain ⟨k, rfl⟩ : ∃ n, k = n + 2 := ⟨k - 2, by omega⟩
  have hentry : Starts (a.tokens ++ [.stop]) (s.entry last) := by
    have hread := hstarts b last hle
    rw [hfirst] at hread ⊢
    exact hread.onNewLine (by decide)
  have hlength : a.tokens.length ≤ (s.entry last).bound := by
    rw [Sequel.entry_bound]
    exact Nat.le_trans hspells.length hle
  have hdepth : 4 * a.tokens.length ≤ 5 * s.bound + 8 := by
    rw [Sequel.entry_bound] at hlength
    omega
  obtain ⟨t, d, hrun, hbare, hd, -⟩ :=
    hstands _ { awaits := true } .top [.stop] ⟨rfl, rfl⟩ hdepth (by decide) (s.entry last) hentry hlength
  have hne : (s.entry last).token ≠ .stop := by
    rw [show (s.entry last).token = .name "window" false from htoken last]
    decide
  have hspan : t.span = ⟨size cs + 1, d.last⟩ := by
    have hstart := span_of_run_statement hrun
    have hoffset := start_reading hink (by rw [htoken last]; decide)
    rwa [show (s.entry last).start = size cs + 1 from hoffset] at hstart
  have hstep : (programStep (5 * s.bound + 8) ts.reverse).run (s.entry last) = some (some (t :: ts.reverse), d) := by
    rw [run_programStep_of_ne hne, hrun]
    rfl
  rw [run_repeatUpTo_some hstep, run_repeatUpTo_none (run_programStep_stop hd.token _)] at heq
  refine ⟨t, d.last, ⟨d, ?_, rfl⟩, hbare, hspan⟩
  rw [List.reverse_append, List.reverse_singleton, List.singleton_append]
  exact heq

/-! ### The end of a function -/

theorem eq_or_exists_of_cons {x : Char} {es : List Char} (h : x :: ds = cs ++ '\n' :: es) :
    x = '\n' ∧ ds = es ∨ ∃ cs', ds = cs' ++ '\n' :: es := by
  cases cs with
  | nil => exact .inl (List.cons.inj h)
  | cons c cs => exact .inr ⟨cs, (List.cons.inj h).2⟩

theorem exists_of_cons_cons {x y : Char} {es : List Char} (hx : x ≠ '\n') (hy : y ≠ '\n')
    (h : ∃ cs, x :: y :: ds = cs ++ '\n' :: es) : ∃ cs, ds = cs ++ '\n' :: es := by
  obtain ⟨cs, hcs⟩ := h
  rcases eq_or_exists_of_cons hcs with ⟨h, -⟩ | ⟨cs, hcs⟩
  · exact absurd h hx
  rcases eq_or_exists_of_cons hcs with ⟨h, -⟩ | h
  · exact absurd h hy
  · exact h

/-- A brace and a semicolon on a line of their own stand in no gap. -/
theorem rest_ne_nil_of_closing {newline : Bool} {offset : Nat} {part : GapPart} {g : Gap}
    (h : gap? newline offset part ds = some g) (hds : ∃ cs, ds = cs ++ '\n' :: ['\x7d', ';']) : g.rest ≠ [] := by
  have hbrace {newline : Bool} {offset : Nat} {g : Gap}
      (h : gap? newline offset .blank ['\x7d', ';'] = some g) : g.rest ≠ [] := by
    obtain rfl := Option.some.inj h
    simp
  fun_induction gap? newline offset part ds with
  | case1 => cases h
  | case2 => simp at hds
  | case3 newline offset ds ih => exact ih h (exists_of_cons_cons (by decide) (by decide) hds)
  | case4 newline offset ds ih => exact ih h (exists_of_cons_cons (by decide) (by decide) hds)
  | case5 newline offset ds ih => exact ih h (exists_of_cons_cons (by decide) (by decide) hds)
  | case6 newline offset c ds _ _ hline ih =>
    obtain ⟨cs, hcs⟩ := hds
    rcases eq_or_exists_of_cons hcs with ⟨rfl, rfl⟩ | hds
    · exact hbrace h
    · exact ih h hds
  | case7 newline offset c ds _ _ hline hblank ih =>
    obtain ⟨cs, hcs⟩ := hds
    rcases eq_or_exists_of_cons hcs with ⟨rfl, rfl⟩ | hds
    · exact hbrace h
    · exact ih h hds
  | case8 newline offset c ds =>
    obtain rfl := Option.some.inj h
    simp
  | case9 newline offset c ds hline ih =>
    obtain ⟨cs, hcs⟩ := hds
    rcases eq_or_exists_of_cons hcs with ⟨rfl, rfl⟩ | hds
    · exact hbrace h
    · exact ih h hds
  | case10 newline offset c ds hline ih =>
    obtain ⟨cs, hcs⟩ := hds
    rcases eq_or_exists_of_cons hcs with ⟨rfl, rfl⟩ | hds
    · exact absurd rfl hline
    · exact ih h hds
  | case11 newline offset c ds hclose ih =>
    obtain ⟨cs, hcs⟩ := hds
    rcases eq_or_exists_of_cons hcs with ⟨rfl, rfl⟩ | hds
    · cases h
    · exact ih h hds

theorem not_isGap_of_closing : ¬ IsGap (cs ++ '\n' :: ['\x7d', ';']) := by
  rintro (hgap | ⟨ds, hds, hgap⟩) <;> obtain ⟨g, hg, hrest⟩ := exists_gap?_of_gapRest? hgap false 0
  · exact rest_ne_nil_of_closing hg ⟨cs, rfl⟩ hrest
  · exact rest_ne_nil_of_closing hg (exists_of_cons_cons (by decide) (by decide) ⟨cs, hds.symm⟩) hrest

theorem not_isGap_of_isInk {ch : Char} (hink : isInk ch = true) (hhash : ch ≠ '#') : ¬ IsGap (ch :: cs) := by
  rintro (hgap | ⟨ds, hds, -⟩)
  · obtain ⟨g, hg, hrest⟩ := exists_gap?_of_gapRest? hgap false 0
    obtain ⟨o, ho⟩ := @gapTo_of_isInk cs _ hink false 0
    obtain rfl := Option.some.inj (hg.symm.trans ho)
    exact List.cons_ne_nil _ _ hrest
  · exact hhash (List.cons.inj hds).1

/-- Behind a function nothing but the end of its program is a gap. -/
theorem eq_nil_of_isGap {rest : List Char} (h : Takes n (cs ++ '\n' :: ['\x7d', ';']) rest) (hgap : IsGap rest) :
    rest = [] := by
  obtain ⟨xs, hxs, -⟩ := h
  rcases List.append_eq_append_iff.1 hxs with ⟨ys, -, hrest⟩ | ⟨ys, -, rfl⟩
  · -- the gap is a part of the last line
    match ys, hrest with
    | [], hrest =>
      rw [List.nil_append] at hrest
      exact absurd (hrest ▸ hgap) (@not_isGap_of_closing [])
    | [_], hrest =>
      obtain rfl := (List.cons.inj hrest).2
      exact absurd hgap (not_isGap_of_isInk (by decide) (by decide))
    | [_, _], hrest =>
      obtain rfl := (List.cons.inj (List.cons.inj hrest).2).2
      exact absurd hgap (not_isGap_of_isInk (by decide) (by decide))
    | _ :: _ :: _ :: zs, hrest =>
      have hnil := (List.cons.inj (List.cons.inj (List.cons.inj hrest).2).2).2
      exact (List.append_eq_nil_iff.1 hnil.symm).2
  · exact absurd hgap not_isGap_of_closing

end Relabel.Script
