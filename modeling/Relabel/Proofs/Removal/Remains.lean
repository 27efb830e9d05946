import Relabel.Proofs.Removal.Between

/-!
# What removal leaves

Where fragments stand on lines behind a program, cutting them out leaves the program with a gap behind it, which is read
as before, and where they stand on lines between programs, all of these are left (`left_of_removal`). Where a fragment is
all that another statement holds, what is left may be no program (`exists_removal_unreadable`).
-/

namespace Relabel.Script
open Text Fragment Reading
variable {s : Sequel} {c d : Cursor} {cs ds rest : List Char} {ts acc : List Tree} {depth n last : Nat}

/-! ### A line behind a program -/

theorem takes_replicate_blank (n : Nat) (cs : List Char) : Takes n (List.replicate n ' ' ++ cs) cs := by
  refine ⟨List.replicate n ' ', rfl, ?_⟩
  induction n with
  | zero => rfl
  | succ n ih =>
    rw [List.replicate_succ, size_cons, ih, Nat.add_comm]
    rfl

theorem passed_replicate_blank (n : Nat) : Passed .blank (List.replicate n ' ') := by
  induction n with
  | zero => exact passed_nil
  | succ n ih => exact ih.cons fun _ => gapRest?_blank (.inr (by decide)) _

/-- A line that opens with a property of `window`. -/
def windowLine (cs : List Char) : List Char :=
  "window[".toList ++ cs

theorem toList_windowLine (program rest : String) :
    (program ++ "\n" ++ "window[" ++ rest).toList = program.toList ++ '\n' :: windowLine rest.toList := by
  have happend (a b c : String) :
      (program ++ a ++ b ++ c).toList = program.toList ++ (a.toList ++ (b.toList ++ c.toList)) := by
    simp
  exact happend "\n" "window[" rest

theorem reading_windowLine {b : Nat} (hb : (windowLine cs).length ≤ b) (last offset : Nat) :
    (Cursor.reading b last offset .blank (windowLine cs)).token = .name "window" false ∧
      (Cursor.reading b last offset .blank (windowLine cs)).start = offset := by
  have hends : EndsName ('[' :: cs) := by
    rintro c ds h
    obtain ⟨rfl, -⟩ := List.cons.inj h
    decide
  exact @reading_isName "window" _ _ (by decide) hends hb last offset

/-- A program of which nothing but blanks are left, and a line behind it. -/
def Sequel.blanked (s : Sequel) : Sequel :=
  .ofGap (List.replicate (size s.program) ' ' ++ '\n' :: s.text) [] rfl

theorem Sequel.blanked_ne_hashbang (s : Sequel) (ds : List Char) : s.blanked.program ≠ '#' :: '!' :: ds := by
  show List.replicate (size s.program) ' ' ++ '\n' :: s.text ≠ _
  cases size s.program <;> simp [List.replicate_succ]

theorem Sequel.behind_blanked (hlast : last ≤ size s.program) (hgap : gapRest? .blank s.text = some rest) :
    s.blanked.Behind last rest := by
  refine ⟨List.replicate (size s.program - last) ' ' ++ '\n' :: s.text, ?_, .inl ?_⟩
  · have hreplicate : List.replicate (size s.program) ' ' =
        List.replicate last ' ' ++ List.replicate (size s.program - last) ' ' := by
      rw [List.replicate_append_replicate, Nat.add_sub_cancel' hlast]
    show Takes last (List.replicate (size s.program) ' ' ++ '\n' :: s.text) _
    rw [hreplicate, List.append_assoc]
    exact takes_replicate_blank ..
  · rw [passed_replicate_blank, gapRest?_blank (.inl (by decide))]
    exact hgap

/-- On the line behind a program the cursor stands as where the program is blanked out. -/
theorem Sequel.holds_entry (hbound : s.bound = (s.program ++ '\n' :: s.text).length) (hlast : last ≤ size s.program)
    (htoken : (s.entry last).token = .name "window" false) : s.blanked.Holds (s.entry last) := by
  have hprogram : s.blanked.bound = size s.program + 1 + s.text.length + 1 := by
    simp [blanked, ofGap, Nat.add_assoc, Nat.add_comm]
  have hlength : s.program.length ≤ size s.program := length_le_size _
  rw [List.length_append, List.length_cons] at hbound
  have htakes : Takes (size s.program + 1) s.blanked.program s.text :=
    (takes_replicate_blank ..).trans ⟨['\n'], rfl, rfl⟩
  have hvalid : (Cursor.reading s.bound last (size s.program + 1) .blank s.text).token ≠ .invalid :=
    fun h => by cases h.symm.trans htoken
  have halike := reading_longer hvalid htakes (fun _ => behind_blanked hlast) (by omega) (by omega)
  have hc := halike.holds fun h => by cases h.symm.trans htoken
  exact ⟨hc.rest, hc.behind, hc.mark, hc.fuel, hc.bound⟩

/-- Behind a program and a line that opens with a property of `window` are the statements of the program and others.
These are cut out as parts of the text, and then nothing but a gap is left behind the program. -/
theorem IsRead.exists_behind {last' : Nat} {ws : List Tree} (h : IsRead cs ts last)
    (hall : IsRead (cs ++ '\n' :: windowLine ds) ws last') :
    ∃ us : List Tree, ws = ts ++ us ∧ (us ≠ [] → (∀ u ∈ us, u.span.start ≤ u.span.stop) →
      ∃ cuts tail gap, cs ++ '\n' :: windowLine ds = Cut.whole cuts ++ tail ∧
        us.map Tree.span = (Cut.edits 0 cuts).map Edit.span ∧
        cuts.flatMap Cut.kept ++ tail = cs ++ '\n' :: gap ∧ gapRest? .blank gap = some []) := by
  have hreading (last : Nat) := @reading_windowLine ds (cs ++ '\n' :: windowLine ds).length (by simp; omega) last
    (size cs + 1)
  let s : Sequel := ⟨cs, windowLine ds, (cs ++ '\n' :: windowLine ds).length, fun last =>
    .inr ⟨"window", by decide, (hreading last).1⟩⟩
  obtain ⟨hends, k, -, heq⟩ := IsRead.longer (s := s) h rfl
  obtain ⟨d, hrun, -⟩ := hall
  have hlast : last ≤ size s.program := by
    obtain ⟨rest, htakes, -⟩ := hends
    have hsize := htakes.size_eq
    omega
  obtain ⟨-, hcuts⟩ := exists_cuts_of_run s.blanked_ne_hashbang (heq.symm.trans hrun)
  have hholds : s.blanked.Holds (s.entry last) := Sequel.holds_entry rfl hlast (hreading last).1
  have hne : (s.entry last).token ≠ .stop := fun hstop => by cases hstop.symm.trans (hreading last).1
  obtain ⟨us, hws, hus⟩ := hcuts _ (.inside hholds hne)
  refine ⟨us, by simpa using congrArg List.reverse hws, fun hsome hspans => ?_⟩
  obtain ⟨cuts, tail, htakes, hedits, hstart, hpassed, htail⟩ := hus hspans
  cases cuts with
  | nil => exact absurd (List.map_eq_nil_iff.1 hedits) hsome
  | cons c cuts =>
    rw [Sequel.entry_last] at htakes hedits hstart
    have hstart : last + size c.kept = size cs + 1 := (hstart c rfl).trans (hreading last).2
    rw [Cut.whole_cons, List.append_assoc, List.append_assoc] at htakes
    have hgone : Takes (size cs + 1) s.blanked.program (c.gone ++ (Cut.whole cuts ++ tail)) :=
      (htakes.trans ⟨c.kept, rfl, rfl⟩).of_eq hstart
    have hline : Takes (size cs + 1) s.blanked.program (windowLine ds) :=
      (takes_replicate_blank ..).trans ⟨['\n'], rfl, rfl⟩
    have hdrop : ∀ x ∈ cuts, Passed .blank x.kept := fun x hx => hpassed x (List.mem_cons_of_mem c hx)
    refine ⟨⟨cs ++ ['\n'], c.gone⟩ :: cuts, tail, cuts.flatMap Cut.kept ++ tail, ?_, ?_, ?_, ?_⟩
    · rw [hline.unique hgone, Cut.whole_cons]
      simp
    · have hsize : size (cs ++ ['\n']) = size cs + 1 := by
        rw [size_append]
        rfl
      rw [hedits, Cut.edits, Cut.edits, hstart, hsize, Nat.zero_add]
    · simp
    · rw [passed_flatMap_kept hdrop, htail]

end Relabel.Script

namespace Relabel
open Script Text
variable {file : String} {text : Mapped} {r : Removal} {t tree : Tree} {us : List Tree}

theorem Removal.of_spans_nil (ht : read? text.content = some t) (h : t.fragmentSpans = []) :
    Removal.of file text = .ok ⟨text, 0⟩ := by
  simp [Removal.of, ht, h]
  rfl

/-- Removal splices nothing in place of the fragments. -/
theorem Removal.splice_of (h : Removal.of file text = .ok r) :
    ∃ tree, read? text.content = some tree ∧ r.removed = tree.fragmentSpans.length ∧
      (tree.fragmentSpans = [] ∧ r.text = text ∨
        tree.fragmentSpans ≠ [] ∧ text.splice file (tree.fragmentSpans.map (⟨·, ""⟩)) = .ok r.text) := by
  cases htree : read? text.content with
  | none => simp [Removal.of, htree, throw, throwThe, MonadExceptOf.throw] at h
  | some tree =>
    refine ⟨tree, rfl, ?_⟩
    by_cases hspans : tree.fragmentSpans = []
    · obtain rfl := Except.ok.inj ((of_spans_nil htree hspans).symm.trans h)
      exact ⟨by rw [hspans]; rfl, .inl ⟨hspans, rfl⟩⟩
    · cases hsplice : text.splice file (tree.fragmentSpans.map (⟨·, ""⟩)) with
      | error e => simp [Removal.of, htree, hspans, hsplice, bind, Except.bind] at h
      | ok cut =>
        obtain rfl : ⟨cut, tree.fragmentSpans.length⟩ = r := by
          simpa [Removal.of, htree, hspans, hsplice, bind, Except.bind, pure, Except.pure] using h
        exact ⟨rfl, .inr ⟨hspans, rfl⟩⟩

/-- A program from which fragments can be cleared is left without them. -/
theorem left_of_cleared {left : List Char} {ws ts : List Tree} (h : Removal.of file text = .ok r)
    (htree : read? text.content = some tree) (hcleared : Cleared 0 text.content.toList left ws ts) :
    ∃ rest, read? r.text.content = some rest ∧
      rest.children.map Tree.bare = (tree.children.filter (!·.assignsFragment)).map Tree.bare ∧
      r.removed = (tree.children.filter Tree.assignsFragment).length ∧ Removal.of file r.text = .ok ⟨r.text, 0⟩ := by
  obtain ⟨tree', htree', hremoved, hsplice⟩ := Removal.splice_of h
  obtain rfl : tree = tree' := Option.some.inj (htree.symm.trans htree')
  obtain ⟨ws', last', stop', hall, rfl, hsettled, hexports⟩ := exists_isRead htree
  obtain ⟨⟨n, wlast, hwhole⟩, ⟨m, llast, hm, hleft⟩, ⟨cuts, tail, hcuts, hkept, hedits⟩, hspans, hnone, hbare⟩ :=
    hcleared
  obtain ⟨rfl, -⟩ := IsReadIn.unique hall hwhole
  rw [fragmentSpans_program] at hremoved hsplice
  have hcontent : r.text.content.toList = left := by
    rcases hsplice with ⟨hnil, hsame⟩ | ⟨-, hsplice⟩
    · rw [hnil] at hedits
      cases cuts with
      | nil => rw [hsame, hcuts, hkept]; rfl
      | cons c cuts => cases hedits
    · rw [hedits, Cut.map_span_edits] at hsplice
      rw [Mapped.content_of_splice_cuts hsplice hcuts, hkept]
  have hread : IsRead r.text.content.toList ts llast := hcontent ▸ hleft.mono (by omega)
  have hsettled' : (Script.Tree.node .program ⟨0, stop'⟩ ts).isSettled = true := by
    rw [Tree.isSettled_node, Bool.and_eq_true] at hsettled ⊢
    refine ⟨rfl, ?_⟩
    rw [← Tree.all_isSettled_bares, hbare, Tree.all_isSettled_bares, List.all_eq_true]
    exact fun u hu => List.all_eq_true.1 hsettled.2 u (List.mem_of_mem_filter hu)
  have hexports' : (Script.Tree.node .program ⟨0, stop'⟩ ts).exportsOnce = true := by
    rw [Tree.exportsOnce, decide_eq_true_eq, Tree.children] at hexports ⊢
    rwa [← Tree.flatMap_exportedNames_bares, hbare, Tree.flatMap_exportedNames_bares, flatMap_exportedNames_kept]
  obtain ⟨stop, hrest⟩ := hread.read? hsettled' hexports'
  refine ⟨_, hrest, ?_, ?_, Removal.of_spans_nil hrest (by rw [fragmentSpans_program, hnone])⟩
  · rw [← Tree.bares_eq_map, ← Tree.bares_eq_map]
    exact hbare
  · rw [hremoved, hspans, List.length_map]
    rfl

/-- What removal leaves. The text is the old one without the bytes of the fragments, of which each is counted. If
fragments stand behind a program that has none, on lines of which the first opens with a property of `window`, then what
is left is read as the statements of that program, at the bytes where they stood before: the statements that were read
and are gone are the fragments. If programs without fragments and lines of fragments take turns, then what is left is
read as the statements that are no fragments, all in their order. Nothing is cut out of it again. -/
theorem left_of_removal (h : Removal.of file text = .ok r) :
    ∃ tree, read? text.content = some tree ∧ r.removed = tree.fragmentSpans.length ∧
      (∃ es, Edit.Arranged (tree.fragmentSpans.map (⟨·, ""⟩)) es ∧
        r.text.content = .ofList (Edit.woven text.content.toList 0 es)) ∧
      (∀ program rest t, text.content = program ++ "\n" ++ "window[" ++ rest → read? program = some t →
        t.fragmentSpans = [] → (∀ u ∈ tree.children.drop t.children.length, u.assignsFragment = true) →
        ∃ left us, read? r.text.content = some left ∧ left.children = t.children ∧
          tree.children = left.children ++ us ∧ us.length = r.removed ∧ Removal.of file r.text = .ok ⟨r.text, 0⟩) ∧
      ∀ program (turns : List Turn) t, text.content = program ++ String.join (turns.map Turn.text) →
        read? program = some t → t.fragmentSpans = [] → (∀ turn ∈ turns, turn.Stands) →
        ∃ left, read? r.text.content = some left ∧
          left.children.map Tree.bare = (tree.children.filter (!·.assignsFragment)).map Tree.bare ∧
          r.removed = (tree.children.filter Tree.assignsFragment).length ∧
          Removal.of file r.text = .ok ⟨r.text, 0⟩ := by
  obtain ⟨tree, htree, hremoved, hsplice⟩ := Removal.splice_of h
  refine ⟨tree, htree, hremoved, ?_, fun program rest t htext ht hnone hassigns => ?_,
    fun program turns t htext ht hnone hturns => ?_⟩
  · rcases hsplice with ⟨hspans, htext⟩ | ⟨-, hsplice⟩
    · refine ⟨[], ⟨fun e => by rw [hspans]; simp, .nil⟩, ?_⟩
      rw [htext, Edit.woven, after_zero, String.ofList_toList]
    · exact (Mapped.woven_of_splice hsplice).2
  · obtain ⟨ts, last, stop, hread, rfl, hsettled, hexports⟩ := exists_isRead ht
    obtain ⟨ws, last', stop', hall, rfl, -, -⟩ := exists_isRead htree
    have hline : text.content.toList = program.toList ++ '\n' :: windowLine rest.toList := by
      rw [htext, toList_windowLine]
    rw [hline] at hall
    obtain ⟨us, rfl, hcuts⟩ := hread.exists_behind hall
    have hus : ∀ u ∈ us, u.assignsFragment = true := by
      simpa [Tree.children] using hassigns
    have hspans : Tree.fragmentSpans (.node .program ⟨0, stop'⟩ (ts ++ us)) = us.map Tree.span := by
      rw [fragmentSpans_program] at hnone ⊢
      rw [fragmentSpansOf_append, hnone, List.nil_append, fragmentSpansOf_of_assigns hus]
    obtain ⟨last'', hleft⟩ : ∃ last'', IsRead r.text.content.toList ts last'' := by
      rw [hspans] at hsplice
      rcases hsplice with ⟨hnil, hsame⟩ | ⟨hsome, hsplice⟩
      · obtain rfl := List.map_eq_nil_iff.1 hnil
        exact ⟨last', by rwa [hsame, hline, ← List.append_nil ts]⟩
      · have hfits := (Mapped.woven_of_splice hsplice).1
        have hle : ∀ u ∈ us, u.span.start ≤ u.span.stop := fun u hu =>
          (hfits ⟨u.span, ""⟩ (List.mem_map_of_mem (List.mem_map_of_mem hu))).le
        obtain ⟨cuts, tail, gap, hwhole, hedits, hkept, hgap⟩ := hcuts (fun hnil => hsome (by rw [hnil]; rfl)) hle
        rw [hedits, Cut.map_span_edits] at hsplice
        have hcontent := Mapped.content_of_splice_cuts hsplice (hline.trans hwhole)
        exact ⟨last, by rw [hcontent, hkept]; exact hread.gap hgap⟩
    obtain ⟨stop'', htreeLeft⟩ := hleft.read? hsettled hexports
    have hnoneLeft : Tree.fragmentSpans (.node .program ⟨0, stop''⟩ ts) = [] := by
      rw [fragmentSpans_program] at hnone ⊢
      exact hnone
    exact ⟨_, us, htreeLeft, rfl, rfl, by rw [hremoved, hspans, List.length_map], Removal.of_spans_nil htreeLeft hnoneLeft⟩
  · obtain ⟨ts, last, stop, hread, rfl, -, -⟩ := exists_isRead ht
    rw [fragmentSpans_program] at hnone
    obtain ⟨left, ws, ts', hcleared⟩ := (Cleared.of_program hread hnone).of_turns hturns
    rw [← String.toList_append, ← htext] at hcleared
    exact left_of_cleared h htree hcleared

/-- A call, and a fragment in a line behind it. -/
def fragmentBehindCall : Mapped :=
  ⟨"f();" ++ "\n" ++ "window[" ++ "\"polymer-rename:d\"] = g;", none⟩

/-- A fragment in a line, and a call behind it. -/
def fragmentAndCall : Turn :=
  ⟨"window[\"polymer-rename:d\"] = g;", "h();"⟩

theorem stands_fragmentAndCall : fragmentAndCall.Stands := by
  have hwindow : BeginsAnew fragmentAndCall.fragments.toList :=
    @BeginsAnew.of_word "window" '[' (by decide) (by decide) (by decide) "\"polymer-rename:d\"] = g;".toList
  have hcall : BeginsAnew fragmentAndCall.program.toList :=
    @BeginsAnew.of_word "h" '(' (by decide) (by decide) (by decide) ");".toList
  have hfragments : (read? ("\n" ++ fragmentAndCall.fragments)).any (fun t =>
      t.children.all Tree.assignsFragment) = true := by
    decide +kernel
  have hprogram : (read? ("\n" ++ fragmentAndCall.program)).any (fun t => t.fragmentSpans.isEmpty) = true := by
    decide +kernel
  refine ⟨hwindow, ?_, hcall, ?_⟩
  · simpa [Option.any_eq_true] using hfragments
  · simpa [Option.any_eq_true] using hprogram

/-- Two calls, and a fragment in a line between them. -/
def fragmentBetweenCalls : Mapped :=
  ⟨"f();" ++ String.join ([fragmentAndCall].map Turn.text), none⟩

/-- The fragment is cut out, and what is called before it and behind it is left. -/
theorem left_of_removal_call :
    (∃ r tree left us, Removal.of "m.js" fragmentBehindCall = .ok r ∧ r.removed = 1 ∧
      read? fragmentBehindCall.content = some tree ∧ read? r.text.content = some left ∧ left.children.length = 1 ∧
      tree.children = left.children ++ us ∧ us.length = 1 ∧ Removal.of "m.js" r.text = .ok ⟨r.text, 0⟩) ∧
    ∃ r tree left, Removal.of "m.js" fragmentBetweenCalls = .ok r ∧ r.removed = 1 ∧
      read? fragmentBetweenCalls.content = some tree ∧ read? r.text.content = some left ∧ tree.children.length = 3 ∧
      left.children.map Tree.bare = (tree.children.filter (!·.assignsFragment)).map Tree.bare ∧
      Removal.of "m.js" r.text = .ok ⟨r.text, 0⟩ := by
  obtain ⟨t, ht, hnone, hone⟩ : ∃ t, read? "f();" = some t ∧ t.fragmentSpans = [] ∧ t.children.length = 1 := by
    have hcheck : (read? "f();").any (fun t => t.fragmentSpans.isEmpty && t.children.length = 1) = true := by
      decide +kernel
    simpa [Option.any_eq_true] using hcheck
  have hassigns : (read? fragmentBehindCall.content).all (fun tree =>
      (tree.children.drop 1).all Tree.assignsFragment) = true := by
    decide +kernel
  have hthree : (read? fragmentBetweenCalls.content).all (fun tree => tree.children.length = 3) = true := by
    decide +kernel
  have hremoval (text : Mapped)
      (h : (Removal.of "m.js" text).toOption.any (fun r => r.removed = 1) = true) :
      ∃ r, Removal.of "m.js" text = .ok r ∧ r.removed = 1 := by
    cases hr : Removal.of "m.js" text with
    | error e => rw [hr] at h; cases h
    | ok r => exact ⟨r, rfl, by simpa [hr, Except.toOption] using h⟩
  refine ⟨?_, ?_⟩
  · obtain ⟨r, hr, hcount⟩ := hremoval fragmentBehindCall (by decide +kernel)
    obtain ⟨tree, htree, -, -, hleft, -⟩ := left_of_removal hr
    rw [htree, Option.all_some, List.all_eq_true] at hassigns
    obtain ⟨left, us, htreeLeft, hchildren, hus, hgone, hagain⟩ :=
      hleft "f();" "\"polymer-rename:d\"] = g;" t rfl ht hnone (hone ▸ hassigns)
    exact ⟨r, tree, left, us, hr, hcount, htree, htreeLeft, hchildren ▸ hone, hus, hgone.trans hcount, hagain⟩
  · obtain ⟨r, hr, hcount⟩ := hremoval fragmentBetweenCalls (by decide +kernel)
    obtain ⟨tree, htree, -, -, -, hleft⟩ := left_of_removal hr
    obtain ⟨left, htreeLeft, hchildren, -, hagain⟩ := hleft "f();" [fragmentAndCall] t rfl ht hnone fun turn hturn =>
      List.mem_singleton.1 hturn ▸ stands_fragmentAndCall
    rw [htree, Option.all_some, decide_eq_true_eq] at hthree
    exact ⟨r, tree, left, hr, hcount, htree, htreeLeft, hthree, hchildren, hagain⟩

/-- Removal cuts a statement out as text, and where it is all that stands behind a condition nothing is left to read. -/
theorem exists_removal_unreadable :
    ∃ r, Removal.of "m.js" ⟨"if (a) window[\"polymer-rename:d\"] = f; else b();", none⟩ = .ok r ∧ r.removed = 1 ∧
      read? r.text.content = none := by
  have hcheck : (Removal.of "m.js" ⟨"if (a) window[\"polymer-rename:d\"] = f; else b();", none⟩).toOption.any (fun r =>
      r.removed = 1 && (read? r.text.content).isNone) = true := by
    decide +kernel
  cases h : Removal.of "m.js" ⟨"if (a) window[\"polymer-rename:d\"] = f; else b();", none⟩ with
  | error e => rw [h] at hcheck; cases hcheck
  | ok r =>
    rw [h] at hcheck
    simp [Except.toOption] at hcheck
    exact ⟨r, rfl, hcheck⟩

end Relabel
