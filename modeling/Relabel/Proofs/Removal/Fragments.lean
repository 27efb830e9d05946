import Relabel.Proofs.Removal.Remains
import Relabel.Proofs.Text.Cut

/-!
# Fragments that are written behind a program

A fragment behind a program is read as a statement from the start of its first line to the end of its last
one (`isRead_fragment`), and it is found as a fragment (`assignsFragment_of_bare`). Between two fragments an empty
line stands.
-/

namespace Relabel.Fragment
open Script Text
variable {target : Phrase} {body : List Statement}

/-- A statement that assigns a function, without the end of its last line. -/
def assignedText (target : Phrase) (body : List Statement) : List Char :=
  (target.text ++ " = function() \x7b").toList ++ '\n' :: (linesText 2 (linesOf body) ++ ['\x7d', ';'])

theorem toList_programText_assignFunction (target : Phrase) (body : List Statement) :
    (programText [.assignFunction target body]).toList = assignedText target body ++ ['\n'] := by
  rw [toList_programText, linesOf, linesOf, List.append_nil, Statement.lines, List.cons_append, linesText_cons,
    linesText_append, linesText_indented]
  simp [assignedText, linesText]

theorem spells_assignedText (htarget : target.isTarget = true) (hok : target.Ok) (hbody : StatementsOk body) :
    Spells (assignedText target body) (assignItem target.item (functionItem (itemsOfAll body))).tokens
      fun _ => True := by
  have hhead := spells_functionHead (spells_target htarget hok)
  have hlines := (@spells_newline fun _ => True).append (written_of_statementsOk hbody 2) fun _ _ => trivial
  have hall := hhead.append (hlines.append (@spells_functionEnd fun _ => True) fun _ _ => trivial) fun _ _ => trivial
  simpa [assignedText, assignItem, functionItem] using hall

theorem linesText_eq_nil_or_newline (k : Nat) (ls : List String) :
    linesText k ls = [] ∨ ∃ cs, linesText k ls = cs ++ ['\n'] := by
  rcases List.eq_nil_or_concat ls with rfl | ⟨ls, l, rfl⟩
  · exact .inl rfl
  · refine .inr ⟨linesText k ls ++ (List.replicate k ' ' ++ l.toList), ?_⟩
    rw [List.concat_eq_append, linesText_append, linesText_cons]
    simp [linesText]

/-- The last line of a function has a brace and a semicolon. -/
theorem exists_assignedText (target : Phrase) (body : List Statement) :
    ∃ cs, assignedText target body = cs ++ '\n' :: ['\x7d', ';'] := by
  rcases linesText_eq_nil_or_newline 2 (linesOf body) with h | ⟨cs, h⟩
  · exact ⟨(target.text ++ " = function() \x7b").toList, by rw [assignedText, h]; rfl⟩
  · exact ⟨(target.text ++ " = function() \x7b").toList ++ '\n' :: cs, by simp [assignedText, h]⟩

theorem exists_assignedText_place (document : String) (body : List Statement) :
    ∃ cs, assignedText (place document) body = 'w' :: cs := by
  simp [assignedText, place, Phrase.text]

/-- A fragment behind a program is read up to the end of its last line. -/
theorem isRead_fragment {cs : List Char} {ts : List Tree} {last : Nat} (h : IsRead cs ts last) (document : String)
    (hbody : StatementsOk body) :
    ∃ t, IsRead (cs ++ '\n' :: (assignedText (place document) body ++ ['\n'])) (ts ++ [t])
        (size cs + 1 + size (assignedText (place document) body)) ∧
      t.bare = (assignItem (place document).item (functionItem (itemsOfAll body))).tree ∧
      t.span = ⟨size cs + 1, size cs + 1 + size (assignedText (place document) body)⟩ := by
  have hspells := spells_assignedText rfl (ok_place document) hbody
  have hstands := stands_place document hbody
  obtain ⟨ds, hds⟩ := exists_assignedText_place document body
  obtain ⟨es, hes⟩ := exists_assignedText (place document) body
  rw [hds] at hspells
  have hwindow : (assignItem (place document).item (functionItem (itemsOfAll body))).tokens =
      .name "window" false :: ([.mark "[", .string (key document), .mark "]"] ++
        .mark "=" :: (functionItem (itemsOfAll body)).tokens ++ [.mark ";"]) := by
    rw [item_place]
    rfl
  obtain ⟨t, last', hread, hbare, hspan⟩ := h.line hwindow hstands (by decide) hspells
  rw [← hds] at hread
  -- where the statement ends, the program has nothing but a gap
  obtain ⟨rest, htakes, hgap⟩ := hread.ends
  rw [hes, ← List.cons_append, ← List.append_assoc] at htakes
  obtain rfl := eq_nil_of_isGap htakes hgap
  have hlast : last' = size cs + 1 + size (assignedText (place document) body) := by
    have hsize := htakes.size_eq
    rw [List.append_assoc, List.cons_append, ← hes] at hsize
    simp only [size_nil, size_append, size_cons] at hsize
    have hnewline : '\n'.utf8Size = 1 := rfl
    omega
  rw [hlast] at hread hspan
  refine ⟨t, ?_, hbare, hspan⟩
  simpa using hread.newline

/-! ### Trees -/

theorem exists_of_bare {t : Tree} {label : Label} {children : List Tree} (h : t.bare = branch label children) :
    ∃ span us, t = .node label span us ∧ us.map Tree.bare = children := by
  obtain ⟨label', span, us⟩ := t
  rw [Tree.bare, Tree.bares_eq_map, branch] at h
  obtain ⟨rfl, -, hus⟩ := Tree.node.inj h
  exact ⟨span, us, rfl, hus⟩

theorem isKey_key (document : String) : isKey (key document) = true := by
  rw [isKey, key, String.toList_append, stripPrefix?_append]
  rfl

/-- What is read of a fragment is found as one. -/
theorem assignsFragment_of_bare {t : Tree} {document : String} {a : Item}
    (h : t.bare = (assignItem (place document).item a).tree) : t.assignsFragment = true := by
  rw [item_place] at h
  obtain ⟨span, us, rfl, hus⟩ := exists_of_bare h
  obtain ⟨u, rfl, hu⟩ := List.map_eq_singleton_iff.1 hus
  obtain ⟨uspan, vs, rfl, hvs⟩ := exists_of_bare hu
  obtain ⟨v, ws, rfl, hv, -⟩ := List.map_eq_cons_iff.1 hvs
  obtain ⟨vspan, xs, rfl, hxs⟩ := exists_of_bare hv
  obtain ⟨x, ys, rfl, hx, hys⟩ := List.map_eq_cons_iff.1 hxs
  obtain ⟨y, rfl, hy⟩ := List.map_eq_singleton_iff.1 hys
  obtain ⟨xspan, xchildren, rfl, -⟩ := exists_of_bare hx
  obtain ⟨yspan, ychildren, rfl, -⟩ := exists_of_bare hy
  simp [Tree.assignsFragment, Tree.unwrapped, Tree.isFragmentKey, isKey_key]

/-- The trees of fragments. -/
def AreFragments (us : List Tree) : Prop :=
  ∀ u ∈ us, ∃ document body, u.bare = (assignItem (place document).item (functionItem (itemsOfAll body))).tree

/-! ### Several fragments -/

/-- The program of a document. -/
structure Appended where
  document : String
  body : List Statement

namespace Appended

def statement (f : Appended) : Statement :=
  .assignFunction (place f.document) f.body

def text (f : Appended) : List Char :=
  assignedText (place f.document) f.body

/-- Fragments behind a program, a line between two of them. -/
def behind (program : List Char) (fs : List Appended) : List Char :=
  program ++ fs.flatMap fun f => '\n' :: (f.text ++ ['\n'])

/-- How the fragments are cut out again, of a text that is kept up to the end of the line before them. -/
def cuts (kept : List Char) : List Appended → List Cut
  | [] => []
  | f :: fs => ⟨kept ++ ['\n'], f.text⟩ :: cuts ['\n'] fs

/-- What stands behind the last fragment. -/
def ending (kept : List Char) : List Appended → List Char
  | [] => kept
  | _ :: fs => ending ['\n'] fs

variable {program kept : List Char} {fs : List Appended} {ts : List Tree} {last : Nat}

theorem behind_eq_whole (kept : List Char) (fs : List Appended) :
    behind kept fs = Cut.whole (cuts kept fs) ++ ending kept fs := by
  induction fs generalizing kept with
  | nil => exact List.append_nil kept
  | cons f fs ih =>
    have hrest := ih ['\n']
    rw [behind] at hrest ⊢
    rw [List.flatMap_cons, cuts, ending, Cut.whole_cons, List.append_assoc, ← hrest]
    simp

theorem exists_kept_cuts (kept : List Char) (fs : List Appended) :
    ∃ n, (cuts kept fs).flatMap Cut.kept ++ ending kept fs = kept ++ List.replicate n '\n' := by
  induction fs generalizing kept with
  | nil => exact ⟨0, (List.append_nil kept).symm⟩
  | cons f fs ih =>
    obtain ⟨n, hn⟩ := ih ['\n']
    refine ⟨n + 2, ?_⟩
    rw [cuts, ending, List.flatMap_cons, List.append_assoc, hn]
    simp [List.replicate_succ]

theorem length_edits_cuts (start : Nat) (kept : List Char) (fs : List Appended) :
    (Cut.edits start (cuts kept fs)).length = fs.length := by
  induction fs generalizing start kept with
  | nil => rfl
  | cons f fs ih => rw [cuts, Cut.edits, List.length_cons, List.length_cons, ih]

/-- Fragments behind a program are read as the statements that they are cut out as. -/
theorem isRead_behind (h : IsRead (program ++ kept) ts last) (hfs : ∀ f ∈ fs, StatementsOk f.body) :
    ∃ us last', IsRead (behind (program ++ kept) fs) (ts ++ us) last' ∧
      us.map Tree.span = (Cut.edits (size program) (cuts kept fs)).map Edit.span ∧ AreFragments us := by
  induction fs generalizing program kept ts last with
  | nil =>
    refine ⟨[], last, ?_, rfl, fun u hu => absurd hu List.not_mem_nil⟩
    simpa [behind] using h
  | cons f fs ih =>
    obtain ⟨t, hread, hbare, hspan⟩ := isRead_fragment h f.document (hfs f (List.mem_cons_self ..))
    have hread : IsRead ((program ++ kept ++ '\n' :: f.text) ++ ['\n']) (ts ++ [t])
        (size (program ++ kept) + 1 + size f.text) := by
      rw [List.append_assoc, List.cons_append]
      exact hread
    obtain ⟨us, last', hall, hspans, htrees⟩ := ih hread fun x hx => hfs x (List.mem_cons_of_mem f hx)
    refine ⟨t :: us, last', ?_, ?_, ?_⟩
    · simpa [behind] using hall
    · have hstart : size program + size (kept ++ ['\n']) = size (program ++ kept) + 1 := by
        rw [size_append, size_append]
        rfl
      have hnext : size (program ++ kept ++ '\n' :: f.text) = size (program ++ kept) + 1 + size f.text := by
        rw [size_append, size_cons]
        exact (Nat.add_assoc ..).symm
      rw [List.map_cons, hspans, hnext, cuts, Cut.edits, List.map_cons, hstart, hspan]
      rfl
    · intro u hu
      rcases List.mem_cons.1 hu with rfl | hu
      · exact ⟨f.document, f.body, hbare⟩
      · exact htrees u hu

theorem toList_joined (f : Appended) (fs : List Appended) :
    '\n' :: (joined "\n" ((f :: fs).map fun f => programText [f.statement])).toList = behind [] (f :: fs) := by
  induction fs generalizing f with
  | nil => simp [joined, behind, statement, text, toList_programText_assignFunction]
  | cons g fs ih =>
    have hrest := ih g
    rw [behind] at hrest ⊢
    rw [List.flatMap_cons, ← List.nil_append (List.flatMap _ _), ← hrest]
    simp [joined, statement, text, toList_programText_assignFunction]

end Appended

/-! ### Removal -/

variable {file : String} {text : Mapped} {program : String} {t : Tree} {ts us : List Tree} {fs : List Appended}

theorem AreFragments.spans (h : AreFragments us) : Tree.fragmentSpansOf us = us.map Tree.span :=
  fragmentSpansOf_of_assigns fun u hu => by
    obtain ⟨document, body, hbare⟩ := h u hu
    exact assignsFragment_of_bare hbare

theorem AreFragments.isSettled (h : AreFragments us) : us.all Tree.isSettled = true := by
  refine List.all_eq_true.2 fun u hu => ?_
  obtain ⟨document, body, hbare⟩ := h u hu
  rw [← Tree.isSettled_bare, hbare]
  exact (Statement.assignFunction (place document) body).isSettled_of_mem_items _ (List.mem_singleton_self _)

theorem AreFragments.exportedNames (h : AreFragments us) : us.flatMap Tree.exportedNames = [] := by
  refine List.flatMap_eq_nil_iff.2 fun u hu => Tree.exportedNames_of_not_isExport ?_
  obtain ⟨document, body, hbare⟩ := h u hu
  rw [← Tree.isExport_bare, hbare]
  rfl

/-- A program and fragments behind it are read together. -/
theorem exists_read?_append {span : Span} {last : Nat} (h : IsRead program.toList (ts ++ us) last)
    (hus : AreFragments us) (hsettled : (Script.Tree.node .program span ts).isSettled = true)
    (hexports : (Script.Tree.node .program span ts).exportsOnce = true) :
    ∃ t, read? program = some t ∧ t.fragmentSpans = Tree.fragmentSpansOf ts ++ us.map Tree.span := by
  have hall : (Script.Tree.node .program span (ts ++ us)).isSettled = true := by
    rw [Tree.isSettled_node, Bool.and_eq_true] at hsettled ⊢
    exact ⟨rfl, by rw [List.all_append, hsettled.2, hus.isSettled]; rfl⟩
  have honce : (Script.Tree.node .program span (ts ++ us)).exportsOnce = true := by
    rw [Tree.exportsOnce] at hexports ⊢
    rw [Tree.children, List.flatMap_append, hus.exportedNames, List.append_nil]
    exact hexports
  obtain ⟨stop, hread⟩ := h.read? hall honce
  exact ⟨_, hread, by rw [fragmentSpans_program, fragmentSpansOf_append, hus.spans]⟩

/-- The text of a program, of a line end and of some fragments. -/
theorem toList_appended (program : String) (f : Appended) (fs : List Appended) :
    (program ++ "\n" ++ joined "\n" ((f :: fs).map fun f => programText [f.statement])).toList =
      Appended.behind program.toList (f :: fs) := by
  have hbehind := Appended.toList_joined f fs
  rw [Appended.behind, List.nil_append] at hbehind
  rw [String.toList_append, String.toList_append, List.append_assoc, Appended.behind, ← hbehind]
  rfl

/-- Fragments that are written behind a program are found where they are cut out. -/
theorem exists_read?_of_appended (ht : read? program = some t) (hfs : ∀ f ∈ fs, StatementsOk f.body)
    (htext : text.content = program ++ "\n" ++ joined "\n" (fs.map fun f => programText [f.statement])) :
    ∃ tree, read? text.content = some tree ∧
      tree.fragmentSpans = t.fragmentSpans ++ (Cut.edits 0 (Appended.cuts program.toList fs)).map Edit.span := by
  obtain ⟨ts, last, stop, hread, rfl, hsettled, hexports⟩ := exists_isRead ht
  obtain ⟨us, last', hall, hspans, hus⟩ : ∃ us last', IsRead text.content.toList (ts ++ us) last' ∧
      us.map Tree.span = (Cut.edits 0 (Appended.cuts program.toList fs)).map Edit.span ∧ AreFragments us := by
    cases fs with
    | nil =>
      refine ⟨[], last, ?_, rfl, fun u hu => absurd hu List.not_mem_nil⟩
      rw [htext, List.map_nil, joined, String.intercalate_nil, String.append_empty, String.toList_append, List.append_nil]
      exact hread.newline
    | cons f fs =>
      have hprogram : IsRead ([] ++ program.toList) ts last := hread
      obtain ⟨us, last', hall, hspans, hus⟩ := Appended.isRead_behind hprogram hfs
      exact ⟨us, last', by rwa [htext, toList_appended], hspans, hus⟩
  obtain ⟨tree, htree, hfragments⟩ := exists_read?_append hall hus hsettled hexports
  exact ⟨tree, htree, by rw [hfragments, fragmentSpans_program, hspans]⟩

theorem removal_of_cuts {cs : List Cut} {tail : List Char} (ht : read? text.content = some t)
    (hspans : t.fragmentSpans = (Cut.edits 0 cs).map Edit.span) (hne : cs ≠ [])
    (hmap : ∀ map ∈ text.map, ∃ mappings, Mappings.decode map.mappings = .ok mappings)
    (htext : text.content.toList = Cut.whole cs ++ tail) :
    ∃ r, Removal.of file text = .ok r ∧ r.removed = (Cut.edits 0 cs).length ∧
      r.text.content.toList = cs.flatMap Cut.kept ++ tail := by
  obtain ⟨result, hresult⟩ := @Mapped.exists_splice_cuts file _ _ _ hmap htext
  have hedits : t.fragmentSpans.map (fun span => (⟨span, ""⟩ : Edit)) = Cut.edits 0 cs := by
    rw [hspans, Cut.map_span_edits]
  have hnotEmpty : t.fragmentSpans.isEmpty = false := by
    rw [hspans]
    cases cs with
    | nil => exact absurd rfl hne
    | cons c cs => rfl
  refine ⟨⟨result, t.fragmentSpans.length⟩, ?_, ?_, Mapped.content_of_splice_cuts hresult htext⟩
  · simp [Removal.of, ht, hnotEmpty, hedits, hresult]
  · rw [hspans, List.length_map]

/-- Fragments that are written behind a program without fragments are cut out again. -/
theorem exists_removal_of_appended (ht : read? program = some t) (hnone : t.fragmentSpans = [])
    (hmap : ∀ map ∈ text.map, ∃ mappings, Mappings.decode map.mappings = .ok mappings)
    (hfs : ∀ f ∈ fs, StatementsOk f.body)
    (htext : text.content = program ++ "\n" ++ joined "\n" (fs.map fun f => programText [f.statement])) :
    ∃ r n, Removal.of file text = .ok r ∧ r.removed = fs.length ∧
      r.text.content = program ++ .ofList (List.replicate n '\n') := by
  obtain ⟨tree, htree, hfragments⟩ := exists_read?_of_appended ht hfs htext
  rw [hnone, List.nil_append] at hfragments
  cases fs with
  | nil =>
    refine ⟨⟨text, 0⟩, 1, Removal.of_spans_nil htree hfragments, rfl, ?_⟩
    rw [htext, List.map_nil, joined, String.intercalate_nil, String.append_empty]
    rfl
  | cons f fs =>
    have htoList := htext ▸ toList_appended program f fs
    obtain ⟨r, hr, hremoved, hcontent⟩ := @removal_of_cuts file _ _ _ _ htree hfragments (List.cons_ne_nil _ _) hmap
      (htoList.trans (Appended.behind_eq_whole ..))
    obtain ⟨n, hn⟩ := Appended.exists_kept_cuts program.toList (f :: fs)
    refine ⟨r, n, hr, hremoved.trans (Appended.length_edits_cuts ..), ?_⟩
    exact String.toList_inj.1 (by rw [hcontent, hn, String.toList_append, String.toList_ofList])

end Relabel.Fragment
