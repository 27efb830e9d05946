import Relabel.Fragment.Emission
import Relabel.Proofs.Fragment.Lines
import Relabel.Proofs.Fragment.Loops
import Relabel.Proofs.Fragment.Settled

/-!
# Reading programs

A program assigns its functions to the places of documents (`Placed`): outside of functions `await` is an
operator, and in them it may be a variable. `read?_of_starts`: a text whose tokens are those of such
statements is read as a program of them. `read?_programText`: this is so for the text that statements are
written as, and `read?_joined` for the texts of several programs together.
-/

namespace Relabel.Fragment
open Script Reading
variable {c d : Cursor} {items : List Item} {acc : List Script.Tree} {n depth : Nat}

/-! ### Places of documents -/

/-- The property that the program of a document is assigned to. -/
def place (document : String) : Phrase :=
  .element (.name "window") (.quoted (key document))

theorem ok_place (document : String) : (place document).Ok :=
  ⟨rfl, ⟨"window", [], segments_of_isName (by decide), by decide, by simp⟩, trivial⟩

theorem item_place (document : String) :
    (place document).item = ⟨[.name "window" false, .mark "[", .string (key document), .mark "]"],
      branch (.element false) [branch (.identifier "window") [], branch (.string (key document)) []]⟩ := by
  rw [place, Phrase.item, Phrase.item, Phrase.item, segments_of_isName (by decide)]
  rfl

/-- Every statement assigns a function to the place of a document. -/
def Placed (ss : List Statement) : Prop :=
  ∀ s ∈ ss, ∃ document body, s = .assignFunction (place document) body

theorem placed_program (object : String) (d : DocumentUsages) : Placed (program object d).toList := by
  intro s hs
  rw [program] at hs
  split at hs
  · cases hs
  · exact ⟨d.document, _, List.mem_singleton.1 hs⟩

theorem placed_of_program {object : String} {d : DocumentUsages} {p : Statement} (h : program object d = some p) :
    Placed [p] := by
  have hplaced := placed_program object d
  rwa [h] at hplaced

theorem begins_place (document : String) : Begins true (place document).item := by
  rw [item_place]
  exact ⟨_, _, rfl, .inl ⟨"window", rfl, by decide, fun _ => by decide⟩,
    fun _ _ => .inr (.inr ⟨"[", _, rfl, by decide⟩)⟩

theorem accesses_place (document : String) : Accesses true (place document).item := by
  have hkey : Assigns true ⟨[.string (key document)], branch (.string (key document)) []⟩ :=
    (accesses_string _).assigns (begins_of_ne_name (.inr (.inl ⟨_, rfl⟩)) (by simp))
  have hwindow : Accesses true ⟨[.name "window" false], branch (.identifier "window") []⟩ :=
    accesses_variable ⟨by decide, fun _ => by decide⟩
  rw [item_place]
  exact hwindow.element hkey

/-- The statement of a document stands in a program. -/
theorem stands_place {body : List Statement} (document : String) (hbody : StatementsOk body) :
    Stands true (assignItem (place document).item (functionItem (itemsOfAll body))) := by
  have hplain : IsPlain (place document).item := by
    rw [item_place]
    exact isPlain_name (by decide) (by decide)
  have hlet : DeclaresNothing (place document).item := by
    rw [item_place]
    exact declaresNothing_of_ne (by simp)
  exact stands_assign (begins_place document) hplain hlet (isPlace_item (ok_place document) rfl)
    (accesses_place document) ((accesses_function (readable_of_statementsOk hbody)).assigns begins_function)

theorem stands_of_placed {ss : List Statement} (hss : StatementsOk ss) (hplaced : Placed ss) :
    ∀ a ∈ itemsOfAll ss, Continues a ∧ Stands true a := by
  induction ss with
  | nil => intro a ha; cases ha
  | cons s ss ih =>
    intro a ha
    obtain ⟨document, body, rfl⟩ := hplaced s (List.mem_cons_self ..)
    rcases List.mem_append.1 ha with ha | ha
    · obtain rfl := List.mem_singleton.1 ha
      refine ⟨?_, stands_place document hss.1.2.2.2⟩
      rw [assignItem, List.append_assoc]
      exact (begins_place document).continues
    · exact ih hss.2 (fun s hs => hplaced s (List.mem_cons_of_mem _ hs)) a ha

/-! ### Rounds -/

/-- One round of `program`. -/
def programStep (depth : Nat) (items : List Script.Tree) : Reading (Option (List Script.Tree)) := do
  if (← token) == .stop then return none
  else return some ((← rules depth (.statement .top) { awaits := true }) :: items)

theorem program_eq :
    Script.program = (do
      let depth := 5 * (← get).bound + 8
      let statements ← iterate (programStep depth) []
      let c ← get
      return .node .program ⟨0, c.stop⟩ statements.reverse) := rfl

theorem run_programStep (hitems : ∀ a ∈ items, Continues a ∧ Stands true a)
    (hdepth : ∀ a ∈ items, 4 * a.tokens.length ≤ depth) (hn : items.length + 1 ≤ n)
    (hc : Starts (itemTokens items ++ [.stop]) c) (hlen : ∀ a ∈ items, a.tokens.length ≤ c.bound) :
    ∃ (ts : List Script.Tree) (d : Cursor),
      (repeatUpTo (programStep depth) n acc).run c = some (ts.reverse ++ acc, d) ∧
      ts.map Tree.bare = items.map Item.tree := by
  induction items generalizing acc n c with
  | nil =>
    obtain ⟨n, rfl⟩ : ∃ k, n = k + 1 := ⟨n - 1, by simp at hn; omega⟩
    have hstep : (programStep depth acc).run c = some (none, c) := by
      have := hc.token
      simp [programStep, this]
    exact ⟨[], c, run_repeatUpTo_none hstep, rfl⟩
  | cons a items ih =>
    obtain ⟨⟨t, ts, hts, -, hstop⟩, hstands⟩ := hitems a (List.mem_cons_self ..)
    obtain ⟨n, rfl⟩ : ∃ k, n = k + 1 := ⟨n - 1, by simp at hn; omega⟩
    rw [itemTokens, List.flatMap_cons, List.append_assoc] at hc
    have htoken : c.token ≠ .stop := by
      rw [hc.token_append hts]
      exact hstop
    obtain ⟨t', d, hrun, hbare, hd, hbound⟩ := hstands depth { awaits := true } .top _ ⟨rfl, rfl⟩
      (hdepth a (List.mem_cons_self ..)) (by decide) c hc (hlen a (List.mem_cons_self ..))
    have hstep : (programStep depth acc).run c = some (some (t' :: acc), d) := by
      simp [programStep, htoken, hrun]
    have hn : items.length + 1 ≤ n := by
      rw [List.length_cons] at hn
      omega
    obtain ⟨ts', e, hrun', hbare'⟩ := @ih d (t' :: acc) n
      (fun x hx => hitems x (List.mem_cons_of_mem a hx))
      (fun x hx => hdepth x (List.mem_cons_of_mem a hx)) hn hd
      (fun x hx => by rw [hbound]; exact hlen x (List.mem_cons_of_mem a hx))
    refine ⟨t' :: ts', e, ?_, by simp [hbare, hbare']⟩
    rw [run_repeatUpTo_some hstep, hrun', List.reverse_cons, List.append_assoc]
    rfl

/-- The tree of a program of some statements, up to spans. -/
def programTree (ss : List Statement) : Script.Tree :=
  branch .program ((itemsOfAll ss).map Item.tree)

/-- A text with the tokens of some statements is read as a program of them. -/
theorem read?_of_starts {ss : List Statement} {text : String} (hss : StatementsOk ss) (hplaced : Placed ss)
    (hstarts : Starts (itemTokens (itemsOfAll ss) ++ [.stop]) (.first text.toList))
    (hlen : (itemTokens (itemsOfAll ss)).length ≤ (Cursor.first text.toList).bound) :
    ∃ t, read? text = some t ∧ t.bare = programTree ss := by
  have hitems := stands_of_placed hss hplaced
  have hcount : (itemsOfAll ss).length ≤ (itemTokens (itemsOfAll ss)).length :=
    length_le_length_itemTokens fun a ha => by
      obtain ⟨⟨t, ts, hts, -⟩, -⟩ := hitems a ha
      rw [hts]
      exact List.cons_ne_nil t ts
  have hall : ∀ a ∈ itemsOfAll ss, a.tokens.length ≤ (Cursor.first text.toList).bound :=
    fun a ha => Nat.le_trans (length_le_itemTokens ha) hlen
  obtain ⟨ts, d, hrun, hbare⟩ := @run_programStep _ (itemsOfAll ss) []
    ((Cursor.first text.toList).bound + 2) (5 * (Cursor.first text.toList).bound + 8) hitems
    (fun a ha => by have := hall a ha; omega) (by omega) hstarts hall
  have hprogram : Script.program.run (.first text.toList) =
      some (.node .program ⟨0, d.stop⟩ ts, d) := by
    rw [program_eq]
    simp [run_iterate, hrun]
  have hbareTree : (Script.Tree.node .program ⟨0, d.stop⟩ ts).bare = programTree ss := by
    rw [Tree.bare, Tree.bares_eq_map, hbare]
    rfl
  have hsettled : (Script.Tree.node .program ⟨0, d.stop⟩ ts).isSettled = true := by
    have htrees : ((itemsOfAll ss).map Item.tree).all Tree.isSettled = true := by
      rw [List.all_map, List.all_eq_true]
      exact isSettled_of_mem_itemsOfAll ss
    rw [← Tree.isSettled_bare, hbareTree, programTree, branch, Tree.isSettled_node, htrees]
    rfl
  have hexports : (Script.Tree.node .program ⟨0, d.stop⟩ ts).exportsOnce = true := by
    refine Tree.exportsOnce_of_not_isExport fun u hu => ?_
    have hmem : u.bare ∈ (itemsOfAll ss).map Item.tree := by
      rw [← hbare]
      exact List.mem_map_of_mem hu
    obtain ⟨a, ha, hau⟩ := List.mem_map.1 hmem
    rw [← Tree.isExport_bare, ← hau, not_isExport_itemsOfAll ss a ha]
  exact ⟨_, by simp [read?, hprogram, hsettled, hexports], hbareTree⟩

/-! ### Texts of programs -/

theorem name?_ne_startsName {b : Nat} {ch : Char} {cs : List Char} (h : Script.startsName ch = false)
    (hslash : ch ≠ '\\') : name? b (ch :: cs) = none := by
  have hspelled : spelled? Script.startsName b (ch :: cs) = some ⟨[], 0, false, ch :: cs⟩ := by
    cases b with
    | zero => rfl
    | succ b => simp [spelled?, hslash, h]
  simp [name?, hspelled]

/-- No token begins like the first line of a script that names its interpreter. -/
theorem not_lexes_hashbang {b : Nat} {cs : List Char} {t : Token} {ts : List Token} :
    ¬ Lexes b ('#' :: '!' :: cs) (t :: ts) := by
  rintro ⟨e, rest, l, hgap, hlexeme, -⟩
  have hself : GapTo false .blank ('#' :: '!' :: cs) ('#' :: '!' :: cs) := gapTo_of_isInk rfl
  obtain ⟨o, ho⟩ := hgap false 0
  obtain ⟨o', ho'⟩ := hself false 0
  rw [ho'] at ho
  simp only [Option.some.injEq, Gap.mk.injEq] at ho
  obtain ⟨-, -, rfl⟩ := ho
  have hnone : lexeme? b ('#' :: '!' :: cs) = none := by
    have hname := @name?_ne_startsName b '!' cs (by decide) (by decide)
    simp [lexeme?, nameToken?, hname]
  rw [hnone] at hlexeme
  cases hlexeme

theorem starts_first {cs : List Char} {t : Token} {ts : List Token}
    (h : Lexes cs.length cs (t :: ts)) :
    Starts (t :: ts) (Cursor.first cs) ∧ (Cursor.first cs).bound = cs.length := by
  have hfirst : Cursor.first cs = Cursor.reading cs.length 0 0 .blank cs := by
    rw [Cursor.first.eq_def]
    split
    · exact absurd h not_lexes_hashbang
    · rfl
  rw [hfirst]
  refine ⟨h.starts 0, ?_⟩
  obtain ⟨e, rest, l, hgap, hlexeme, -⟩ := h
  obtain ⟨o, ho⟩ := hgap false 0
  simp [Cursor.reading, ho, hlexeme]

/-- A text that is written as the tokens of some statements is read as a program of them. -/
theorem read?_of_spells {ss : List Statement} {text : String} (hss : StatementsOk ss) (hplaced : Placed ss)
    (h : Spells text.toList (itemTokens (itemsOfAll ss)) fun _ => True) :
    ∃ t, read? text = some t ∧ t.bare = programTree ss := by
  have hlexes := h.lexes text.toList.length [] [.stop] (by simp) trivial (by simp) lexes_stop
  rw [List.append_nil] at hlexes
  have hstarts : Starts (itemTokens (itemsOfAll ss) ++ [.stop]) (.first text.toList) ∧
      (Cursor.first text.toList).bound = text.toList.length := by
    cases htokens : itemTokens (itemsOfAll ss) ++ [Token.stop] with
    | nil => simp at htokens
    | cons t ts =>
      rw [htokens] at hlexes
      exact starts_first hlexes
  exact read?_of_starts hss hplaced hstarts.1 (by rw [hstarts.2]; exact h.length)

theorem toList_programText (ss : List Statement) :
    (programText ss).toList = linesText 0 (linesOf ss) := by
  rw [programText, String.toList_join, List.flatMap_map, linesText]
  refine List.flatMap_congr fun l _ => ?_
  rw [String.toList_append]
  rfl

theorem read?_programText {ss : List Statement} (hss : StatementsOk ss) (hplaced : Placed ss) :
    ∃ t, read? (programText ss) = some t ∧ t.bare = programTree ss := by
  refine read?_of_spells hss hplaced ?_
  rw [toList_programText]
  exact written_of_statementsOk hss 0

theorem statementsOk_append {ss ss' : List Statement} (h : StatementsOk ss) (h' : StatementsOk ss') :
    StatementsOk (ss ++ ss') := by
  induction ss with
  | nil => exact h'
  | cons s ss ih => exact ⟨h.1, ih h.2⟩

theorem statementsOk_flatten {programs : List (List Statement)} (h : ∀ ss ∈ programs, StatementsOk ss) :
    StatementsOk programs.flatten := by
  induction programs with
  | nil => trivial
  | cons ss programs ih =>
    exact statementsOk_append (h ss (List.mem_cons_self ..)) (ih fun x hx => h x (List.mem_cons_of_mem ss hx))

theorem itemsOfAll_append (ss ss' : List Statement) :
    itemsOfAll (ss ++ ss') = itemsOfAll ss ++ itemsOfAll ss' := by
  induction ss with
  | nil => rfl
  | cons s ss ih => rw [List.cons_append, itemsOfAll, itemsOfAll, ih, List.append_assoc]

/-- Programs with an empty line between two of them are written as the tokens of all. -/
theorem spells_combined : ∀ {programs : List (List Statement)}, (∀ ss ∈ programs, StatementsOk ss) →
    Spells (joined "\n" (programs.map programText)).toList (itemTokens (itemsOfAll programs.flatten))
      fun _ => True
  | [], _ => spells_nil
  | [ss], h => by
    have hss := written_of_statementsOk (h ss (List.mem_cons_self ..)) 0
    rw [← toList_programText] at hss
    simpa [joined] using hss
  | ss :: ss' :: rest, h => by
    have hss := written_of_statementsOk (h ss (List.mem_cons_self ..)) 0
    rw [← toList_programText] at hss
    have hrest := @spells_combined (ss' :: rest) fun x hx => h x (List.mem_cons_of_mem ss hx)
    have hline := (@spells_newline fun _ => True).append hrest fun _ _ => trivial
    have hall := hss.append hline fun _ _ => trivial
    rw [List.flatten_cons, itemsOfAll_append, itemTokens_append]
    simpa [joined] using hall

/-- The programs of several documents are read together as a program of all their statements. -/
theorem read?_joined {programs : List (List Statement)} (h : ∀ ss ∈ programs, StatementsOk ss)
    (hplaced : Placed programs.flatten) :
    ∃ t, read? (joined "\n" (programs.map programText)) = some t ∧
      t.bare = programTree programs.flatten :=
  read?_of_spells (statementsOk_flatten h) hplaced (spells_combined h)

end Relabel.Fragment
