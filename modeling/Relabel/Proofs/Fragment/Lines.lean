import Relabel.Proofs.Fragment.Texts

/-!
# Texts of statements

Every statement is written as its tokens, whatever the indentation: `Statement.written`.
-/

namespace Relabel.Fragment
open Script
variable {k : Nat} {cs rest : List Char} {ts us : List Token} {w : String} {ok : List Char → Prop}
  {a : Item} {l : String} {ls : List String}

/-- Lines behind some spaces. -/
def linesText (k : Nat) (lines : List String) : List Char :=
  lines.flatMap fun l => List.replicate k ' ' ++ (l.toList ++ ['\n'])

theorem linesText_cons (k : Nat) (l : String) (ls : List String) :
    linesText k (l :: ls) = List.replicate k ' ' ++ (l.toList ++ ['\n']) ++ linesText k ls := rfl

theorem linesText_append (k : Nat) (ls ls' : List String) :
    linesText k (ls ++ ls') = linesText k ls ++ linesText k ls' := by
  rw [linesText, List.flatMap_append]
  rfl

theorem linesText_indented (k : Nat) (ls : List String) :
    linesText k (indented ls) = linesText (k + 2) ls := by
  rw [linesText, linesText, indented, List.flatMap_map]
  refine List.flatMap_congr fun l _ => ?_
  rw [String.toList_append, List.replicate_add]
  simp

/-- Lines are written as some tokens, whatever the indentation. -/
def LinesSpell (lines : List String) (ts : List Token) : Prop :=
  ∀ k, Spells (linesText k lines) ts fun _ => True

theorem spells_spaces (k : Nat) : Spells (List.replicate k ' ') [] ok := by
  induction k with
  | zero => exact spells_nil
  | succ k ih => exact (@spells_space fun _ => True).append ih fun _ _ => trivial

theorem linesSpell_nil : LinesSpell [] [] :=
  fun _ => spells_nil

theorem linesSpell_line (h : Spells l.toList ts fun _ => True) : LinesSpell [l] ts := by
  intro k
  have hline := (@spells_spaces (fun _ => True) k).append
    (h.append (@spells_newline fun _ => True) fun _ _ => trivial) fun _ _ => trivial
  simpa [linesText] using hline

theorem LinesSpell.append {ls' : List String} (h : LinesSpell ls ts) (h' : LinesSpell ls' us) :
    LinesSpell (ls ++ ls') (ts ++ us) := by
  intro k
  rw [linesText_append]
  exact (h k).append (h' k) fun _ _ => trivial

theorem LinesSpell.indented (h : LinesSpell ls ts) : LinesSpell (indented ls) ts := by
  intro k
  rw [linesText_indented]
  exact h (k + 2)

/-! ### Lines of statements -/

theorem spells_word (h : isName w = true) :
    Spells (w ++ " ").toList [.name w false] fun _ => True := by
  rw [String.toList_append]
  exact (spells_name h).append spells_space fun _ _ => (goes_cons (by decide)).endsName

/-- A text with a semicolon behind it. -/
theorem spells_semicolon (h : Spells cs ts Stops) :
    Spells (cs ++ [';']) (ts ++ [.mark ";"]) fun _ => True :=
  h.append (spells_mark (by decide)) fun _ _ => stops_cons (by decide)

theorem spells_let (h : isName w = true) :
    Spells ("let " ++ w ++ " = ").toList [.name "let" false, .name w false, .mark "="]
      fun _ => True := by
  have hlet : Spells "let ".toList [.name "let" false] fun _ => True := @spells_word "let" (by decide)
  have hname : Spells (w.toList ++ [' ', '=', ' ']) [.name w false, .mark "="] fun _ => True :=
    (spells_name h).append spells_equals fun _ _ => (goes_cons (by decide)).endsName
  simpa using hlet.append hname fun _ _ => trivial

theorem written_expression {p : Phrase} (h : p.Ok) :
    LinesSpell [p.text ++ ";"] (expressionItem p.item).tokens :=
  linesSpell_line (by simpa [expressionItem] using spells_semicolon (p.written h).stops)

theorem written_declare {p : Phrase} (hw : isIdentifier w = true) (h : p.Ok) :
    LinesSpell ["let " ++ w ++ " = " ++ p.text ++ ";"] (declareItem w p.item).tokens := by
  have hlet := spells_let (isName_of_isIdentifier hw)
  have hvalue := spells_semicolon (p.written h).stops
  exact linesSpell_line (by simpa [declareItem] using hlet.append hvalue fun _ _ => trivial)

theorem spells_target {p : Phrase} (ht : p.isTarget = true) (h : p.Ok) :
    Spells (p.text ++ " = ").toList (p.item.tokens ++ [.mark "="]) fun _ => True := by
  have htarget := (p.written h).goes (isAccess_of_isTarget ht)
  have hassign : Spells (p.text.toList ++ [' ', '=', ' ']) (p.item.tokens ++ [.mark "="])
      fun _ => True := htarget.append spells_equals fun _ _ => goes_cons (by decide)
  simpa using hassign

theorem written_assign {p q : Phrase} (ht : p.isTarget = true) (hp : p.Ok) (hq : q.Ok) :
    LinesSpell [p.text ++ " = " ++ q.text ++ ";"] (assignItem p.item q.item).tokens := by
  have hvalue := spells_semicolon (q.written hq).stops
  have hassign := (spells_target ht hp).append hvalue fun _ _ => trivial
  exact linesSpell_line (by simpa [assignItem] using hassign)

theorem written_block (h : LinesSpell ls ts) :
    LinesSpell ("\x7b" :: indented ls ++ ["\x7d"]) (.mark openBrace :: ts ++ [.mark closeBrace]) := by
  have hopen : LinesSpell ["\x7b"] [.mark openBrace] :=
    linesSpell_line (@spells_mark _ '\x7b' openBrace (by decide))
  have hclose : LinesSpell ["\x7d"] [.mark closeBrace] :=
    linesSpell_line (@spells_mark _ '\x7d' closeBrace (by decide))
  exact (hopen.append h.indented).append hclose

/-- The first line of a function begins with what it is assigned to. -/
theorem spells_functionHead (hl : Spells l.toList us fun _ => True) :
    Spells (l ++ "function() \x7b").toList
      (us ++ [.name "function" false, .mark "(", .mark ")", .mark openBrace]) fun _ => True := by
  have hbrace := (@spells_space fun _ => True).append
    (@spells_mark (fun _ => True) '\x7b' openBrace (by decide)) fun _ _ => trivial
  have hparens := (@spells_mark (fun _ => True) '(' "(" (by decide)).append
    ((@spells_mark (fun _ => True) ')' ")" (by decide)).append hbrace fun _ _ => trivial) fun _ _ => trivial
  have hhead := hl.append ((@spells_name "function" (by decide)).append hparens
    fun _ _ => (goes_cons (by decide)).endsName) fun _ _ => trivial
  simpa using hhead

theorem spells_functionEnd : Spells "\x7d;".toList [.mark closeBrace, .mark ";"] ok :=
  (@spells_mark (fun _ => True) '\x7d' closeBrace (by decide)).append
    (@spells_mark ok ';' ";" (by decide)) fun _ _ => trivial

theorem written_function (hl : Spells l.toList us fun _ => True) (h : LinesSpell ls ts) :
    LinesSpell ((l ++ "function() \x7b") :: indented ls ++ ["\x7d;"])
      (us ++ [.name "function" false, .mark "(", .mark ")", .mark openBrace] ++ ts
        ++ [.mark closeBrace, .mark ";"]) :=
  ((linesSpell_line (spells_functionHead hl)).append h.indented).append (linesSpell_line spells_functionEnd)

/-- The step of a loop: no line ends before the `++`. -/
theorem spells_increment (h : isName w = true) :
    Spells (w.toList ++ ['+', '+', ')']) [.name w false, .mark "++", .mark ")"] fun _ => True := by
  have hlength := (spells_name h).length
  refine ⟨by simp at hlength ⊢, by simp, fun b rest us hb _ hus hlexes => ?_⟩
  have hparen : Lexes b (')' :: rest) (.mark ")" :: us) :=
    (@spells_mark (fun _ => True) ')' ")" (by decide)).lexes b rest us
      (by simp at hb ⊢; omega) trivial hus hlexes
  have hplus : Lexes b ('+' :: '+' :: ')' :: rest) (.mark "++" :: .mark ")" :: us) :=
    @lexes_token b ['+'] (')' :: rest) _ _ '+' rfl ⟨2, lexeme?_increment b rest⟩ hparen
  obtain ⟨c, cs, hw, -, hall⟩ := chars_of_isName h
  have hends : EndsName ('+' :: '+' :: ')' :: rest) := by
    rintro d ds hds
    injection hds with hd _
    subst hd
    decide
  rw [List.append_assoc] at hb ⊢
  have hlexeme := lexeme?_isName h hb hends
  rw [hw] at hlexeme ⊢
  exact lexes_token (isInk_of_continuesName (hall c (List.mem_cons_self ..))) hlexeme hplus

/-- The first line of a loop. -/
theorem written_head {index : String} {p : Phrase} (hindex : isIdentifier index = true) (hp : p.Ok)
    (haccess : p.isAccess = true) :
    LinesSpell ["for (let " ++ index ++ " = 0; " ++ index ++ " < " ++ p.text ++ ".length; " ++ index
        ++ "++) \x7b"]
      ([.name "for" false, .mark "(", .name "let" false, .name index false, .mark "="]
        ++ (numberItem 0).tokens ++ [.mark ";", .name index false, .mark "<"] ++ p.item.tokens
        ++ [.mark ".", .name "length" false, .mark ";", .name index false, .mark "++", .mark ")",
          .mark openBrace]) := by
  have hname := isName_of_isIdentifier hindex
  have hfor : Spells "for ".toList [.name "for" false] fun _ => True := @spells_word "for" (by decide)
  have hparen := @spells_mark (fun _ => True) '(' "(" (by decide)
  have hlet := spells_let hname
  have hzero := spells_semicolon (spells_whole 0)
  have hindex : Spells (index.toList ++ [' ', '<', ' ']) [.name index false, .mark "<"]
      fun _ => True := (spells_name hname).append spells_less fun _ _ => (goes_cons (by decide)).endsName
  have hlength := spells_semicolon ((((p.written hp).goes haccess).append
    (@spells_member "length" (by decide)) fun _ _ => goes_cons (by decide)).weaken
      fun _ h => (goes_of_stops h).endsName)
  have hincrement := spells_increment hname
  have hbrace := @spells_mark (fun _ => True) '\x7b' openBrace (by decide)
  have hspace := @spells_space fun _ => True
  have hall := hfor.append (hparen.append (hlet.append (hzero.append (hspace.append (hindex.append
    (hlength.append (hspace.append (hincrement.append (hspace.append hbrace
    fun _ _ => trivial) fun _ _ => trivial) fun _ _ => trivial) fun _ _ => trivial)
    fun _ _ => trivial) fun _ _ => trivial) fun _ _ => trivial) fun _ _ => trivial)
    fun _ _ => trivial) fun _ _ => trivial
  exact linesSpell_line (by simpa [numberItem] using hall)

/-! ### By the structure of statements -/

theorem itemTokens_append (items items' : List Item) :
    itemTokens (items ++ items') = itemTokens items ++ itemTokens items' := List.flatMap_append

theorem itemTokens_singleton (a : Item) : itemTokens [a] = a.tokens := by
  rw [itemTokens, List.flatMap_cons, List.flatMap_nil, List.append_nil]

mutual

theorem Statement.written : ∀ {s : Statement}, s.Ok → LinesSpell s.lines (itemTokens s.items)
  | .run p, ⟨_, _, hp⟩ => by
    rw [Statement.items, itemTokens_singleton]
    exact written_expression hp
  | .record p, ⟨_, _, hp⟩ => by
    rw [Statement.items, itemTokens_singleton]
    exact written_expression hp
  | .declare name value, ⟨hname, hvalue⟩ => by
    rw [Statement.items, itemTokens_singleton]
    exact written_declare hname hvalue
  | .assign target value, ⟨htarget, _, hok, hvalue⟩ => by
    rw [Statement.items, itemTokens_singleton]
    exact written_assign htarget hok hvalue
  | .note text, h => linesSpell_line (spells_note h)
  | .block body, h => by
    rw [Statement.items, itemTokens_singleton]
    exact written_block (written_of_statementsOk h)
  | .declareFunction name body, ⟨hname, hbody⟩ => by
    rw [Statement.items, itemTokens_singleton]
    have htext : "let " ++ name ++ " = function() \x7b" = "let " ++ name ++ " = " ++ "function() \x7b" :=
      String.toList_inj.1 (by simp)
    have h := written_function (spells_let (isName_of_isIdentifier hname)) (written_of_statementsOk hbody)
    simpa [Statement.lines, htext, declareItem, functionItem] using h
  | .assignFunction target body, ⟨htarget, _, hok, hbody⟩ => by
    rw [Statement.items, itemTokens_singleton]
    have htext : target.text ++ " = function() \x7b" = target.text ++ " = " ++ "function() \x7b" :=
      String.toList_inj.1 (by simp)
    have h := written_function (spells_target htarget hok) (written_of_statementsOk hbody)
    simpa [Statement.lines, htext, assignItem, functionItem] using h
  | .forEach index item items body, ⟨hindex, hitem, haccess, hok, hbody⟩ => by
    rw [Statement.items, itemTokens_singleton]
    have hhead := written_head hindex hok haccess
    have hname : (Phrase.name index).Ok :=
      ⟨index, [], segments_of_isName (isName_of_isIdentifier hindex), hindex, by simp⟩
    have hfirst := @written_declare item (.element items (.name index)) hitem ⟨haccess, hok, hname⟩
    have hinside := (hfirst.append (written_of_statementsOk hbody)).indented
    have hclose : LinesSpell ["\x7d"] [.mark closeBrace] :=
      linesSpell_line (spells_mark (by decide))
    have h := (hhead.append hinside).append hclose
    have htext : "let " ++ item ++ " = " ++ items.text ++ "[" ++ index ++ "];" =
        "let " ++ item ++ " = " ++ (items.text ++ "[" ++ index ++ "]") ++ ";" :=
      String.toList_inj.1 (by simp)
    simpa [Statement.lines, htext, Phrase.text, loopItem, blockItem, itemTokens] using h

theorem written_of_statementsOk : ∀ {ss : List Statement}, StatementsOk ss →
    LinesSpell (linesOf ss) (itemTokens (itemsOfAll ss))
  | [], _ => linesSpell_nil
  | s :: ss, ⟨hs, hss⟩ => by
    rw [itemsOfAll, itemTokens_append]
    exact (s.written hs).append (written_of_statementsOk hss)

end

end Relabel.Fragment
