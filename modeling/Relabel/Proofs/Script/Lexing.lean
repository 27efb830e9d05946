import Relabel.Proofs.Script.Stream
import Relabel.Proofs.Text.Classes
import Relabel.Text.Quoted

/-!
# Spelling

`Lexes b cs ts`: the text `cs` begins with the tokens `ts`, gaps left out. `Spells cs ts ok`: before
a text that satisfies `ok` the text `cs` is the tokens `ts`, whatever tokens come after it; spellings
are put together with `Spells.append`.
-/

namespace Relabel.Script
variable {b offset : Nat} {cs ds rest : List Char} {t : Token} {ts us : List Token}
  {ok ok' : List Char → Prop} {e : Bool} {c : Char}

/-! ### Gaps -/

/-- A gap up to `rest`; the flag tells whether a line ends in it. -/
def GapTo (e : Bool) (part : GapPart) (cs rest : List Char) : Prop :=
  ∀ newline offset, ∃ o, gap? newline offset part cs = some ⟨newline || e, o, rest⟩

theorem gapTo_nil : GapTo false .blank [] [] := by
  intro newline offset
  exact ⟨offset, by simp [gap?]⟩

/-- No gap begins with a character that is neither blank nor a slash. -/
theorem gapTo_self (hslash : c ≠ '/') (hline : isLineEnd c = false) (hblank : isBlank c = false) :
    GapTo false .blank (c :: cs) (c :: cs) := by
  intro newline offset
  exact ⟨offset, by simp [gap?, hslash, hline, hblank]⟩

theorem GapTo.space (h : GapTo e .blank cs rest) : GapTo e .blank (' ' :: cs) rest := by
  intro newline offset
  obtain ⟨o, ho⟩ := h newline (offset + ' '.utf8Size)
  exact ⟨o, by rw [← ho]; rfl⟩

theorem GapTo.newline (h : GapTo e .blank cs rest) : GapTo true .blank ('\n' :: cs) rest := by
  intro newline offset
  obtain ⟨o, ho⟩ := h true (offset + '\n'.utf8Size)
  exact ⟨o, by rw [Bool.or_true, ← Bool.true_or, ← ho]; rfl⟩

/-- A comment without its closing mark inside. -/
theorem GapTo.insideComment (h : GapTo e .blank cs rest)
    (hds : ∀ a b, ds ++ ['*'] ≠ a ++ '*' :: '/' :: b) :
    ∃ e', GapTo e' .blockComment (ds ++ '*' :: '/' :: cs) rest := by
  induction ds with
  | nil =>
    refine ⟨e, fun newline offset => ?_⟩
    obtain ⟨o, ho⟩ := h newline (offset + 2)
    exact ⟨o, by rw [← ho]; rfl⟩
  | cons d ds ih =>
    obtain ⟨e', he'⟩ := ih fun a b hab => hds (d :: a) b (by rw [List.cons_append, hab]; rfl)
    refine ⟨isLineEnd d || e', fun newline offset => ?_⟩
    obtain ⟨o, ho⟩ := he' (newline || isLineEnd d) (offset + d.utf8Size)
    have hd : ∀ xs, d = '*' → ds ++ '*' :: '/' :: cs ≠ '/' :: xs := by
      rintro xs rfl hxs
      cases ds with
      | nil => simp at hxs
      | cons x ds =>
        injection hxs with hx _
        subst hx
        exact hds [] (ds ++ ['*']) rfl
    refine ⟨o, ?_⟩
    rw [List.cons_append, gap?, ho, Bool.or_assoc]
    exact fun xs hd' hxs => hd xs hd' hxs

theorem GapTo.comment (h : GapTo e .blank cs rest)
    (hds : ∀ a b, ds ++ ['*'] ≠ a ++ '*' :: '/' :: b) :
    ∃ e', GapTo e' .blank ('/' :: '*' :: (ds ++ '*' :: '/' :: cs)) rest := by
  obtain ⟨e', he'⟩ := h.insideComment hds
  refine ⟨e', fun newline offset => ?_⟩
  obtain ⟨o, ho⟩ := he' newline (offset + 2)
  exact ⟨o, by rw [← ho]; rfl⟩

/-! ### Tokens -/

/-- A text begins with some tokens. No line ends before a `++`. -/
def Lexes (b : Nat) : List Char → List Token → Prop
  | _, [] => True
  | cs, t :: ts => ∃ e rest l, GapTo e .blank cs rest ∧ lexeme? b rest = some l ∧ l.token = t ∧
      (t = .mark "++" → e = false) ∧ Lexes b l.rest ts

theorem Lexes.starts (h : Lexes b cs ts) (last : Nat) :
    Starts ts (Cursor.reading b last offset .blank cs) := by
  induction ts generalizing cs last offset with
  | nil => trivial
  | cons t ts ih =>
    obtain ⟨e, rest, l, hgap, hlexeme, ht, hplus, hrest⟩ := h
    obtain ⟨o, ho⟩ := hgap false offset
    have hcursor : Cursor.reading b last offset .blank cs =
        ⟨l.token, o, o + l.size, e, last, l.rest, b⟩ := by
      simp [Cursor.reading, ho, hlexeme]
    rw [hcursor]
    exact ⟨ht, hplus, ih hrest _⟩

theorem lexes_stop : Lexes b [] [.stop] :=
  ⟨false, [], ⟨.stop, 0, []⟩, gapTo_nil, rfl, rfl, fun _ => rfl, trivial⟩

/-- More of a gap before some tokens, the first of which may follow a line end. -/
theorem Lexes.gap (h : Lexes b cs ts) (hplus : ts.head? ≠ some (.mark "++"))
    (hgap : ∀ {e rest}, GapTo e .blank cs rest → ∃ e', GapTo e' .blank ds rest) : Lexes b ds ts := by
  cases ts with
  | nil => trivial
  | cons t ts =>
    obtain ⟨e, rest, l, hcs, hlexeme, ht, -, hrest⟩ := h
    obtain ⟨e', he'⟩ := hgap hcs
    refine ⟨e', rest, l, he', hlexeme, ht, ?_, hrest⟩
    rintro rfl
    exact absurd rfl hplus

/-! ### Spelling -/

/-- Before a text that satisfies `ok`, a text is some tokens; a line may end before them. -/
structure Spells (cs : List Char) (ts : List Token) (ok : List Char → Prop) : Prop where
  length : ts.length ≤ cs.length
  head : ts.head? ≠ some (.mark "++")
  lexes : ∀ b rest us, (cs ++ rest).length ≤ b → ok rest → us.head? ≠ some (.mark "++") →
    Lexes b rest us → Lexes b (cs ++ rest) (ts ++ us)

theorem Spells.weaken (h : Spells cs ts ok) (hok : ∀ rest, ok' rest → ok rest) : Spells cs ts ok' :=
  ⟨h.length, h.head, fun b rest us hb hrest => h.lexes b rest us hb (hok rest hrest)⟩

theorem head?_append_ne (hts : ts.head? ≠ some t) (hus : us.head? ≠ some t) :
    (ts ++ us).head? ≠ some t := by
  cases ts with
  | nil => exact hus
  | cons x ts => exact hts

theorem Spells.append (h : Spells cs ts ok) (h' : Spells ds us ok')
    (hok : ∀ rest, ok' rest → ok (ds ++ rest)) : Spells (cs ++ ds) (ts ++ us) ok' := by
  refine ⟨?_, head?_append_ne h.head h'.head, fun b rest vs hb hrest hvs hlexes => ?_⟩
  · rw [List.length_append, List.length_append]
    exact Nat.add_le_add h.length h'.length
  rw [List.append_assoc] at hb ⊢
  rw [List.append_assoc]
  refine h.lexes b (ds ++ rest) (us ++ vs) hb (hok rest hrest) (head?_append_ne h'.head hvs) ?_
  refine h'.lexes b rest vs ?_ hrest hvs hlexes
  rw [List.length_append] at hb
  omega

theorem spells_nil : Spells [] [] ok :=
  ⟨Nat.le_refl 0, by simp, fun _ _ _ _ _ _ h => h⟩

theorem spells_space : Spells [' '] [] ok :=
  ⟨Nat.zero_le _, by simp, fun _ _ _ _ _ hus h => h.gap hus fun hgap => ⟨_, hgap.space⟩⟩

theorem spells_newline : Spells ['\n'] [] ok :=
  ⟨Nat.zero_le _, by simp, fun _ _ _ _ _ hus h => h.gap hus fun hgap => ⟨_, hgap.newline⟩⟩

theorem spells_comment (hds : ∀ a b, ds ++ ['*'] ≠ a ++ '*' :: '/' :: b) :
    Spells ('/' :: '*' :: (ds ++ ['*', '/'])) [] ok := by
  refine ⟨Nat.zero_le _, by simp, fun b rest us _ _ hus h => h.gap hus fun hgap => ?_⟩
  simpa using hgap.comment hds

/-- A character that stands in no gap. -/
def isInk (c : Char) : Bool :=
  !isLineEnd c && !isBlank c && c != '/'

theorem gapTo_of_isInk (h : isInk c = true) : GapTo false .blank (c :: cs) (c :: cs) := by
  simp only [isInk, Bool.and_eq_true, Bool.not_eq_true', bne_iff_ne] at h
  exact gapTo_self h.2 h.1.1 h.1.2

theorem lexes_token (hc : isInk c = true)
    (h : ∃ size, lexeme? b (c :: cs ++ rest) = some ⟨t, size, rest⟩) (hlexes : Lexes b rest us) :
    Lexes b (c :: cs ++ rest) (t :: us) := by
  obtain ⟨size, hl⟩ := h
  exact ⟨false, c :: cs ++ rest, ⟨t, size, rest⟩, gapTo_of_isInk hc, hl, rfl, fun _ => rfl, hlexes⟩

/-- A text that is one token. -/
theorem spells_token (hc : isInk c = true) (ht : t ≠ .mark "++")
    (h : ∀ b rest, (c :: cs ++ rest).length ≤ b → ok rest →
      ∃ size, lexeme? b (c :: cs ++ rest) = some ⟨t, size, rest⟩) : Spells (c :: cs) [t] ok :=
  ⟨by simp, by simpa using ht, fun b rest _ hb hrest _ => lexes_token hc (h b rest hb hrest)⟩

/-! ### Marks -/

/-- The marks that no other mark begins with. -/
def plainMarks : List (Char × String) :=
  [('(', "("), (')', ")"), ('[', "["), (']', "]"), (',', ","), (';', ";"), ('\x7b', openBrace),
    ('\x7d', closeBrace)]

theorem spells_mark {m : String} (hm : (c, m) ∈ plainMarks) : Spells [c] [.mark m] ok := by
  simp only [plainMarks, List.mem_cons, Prod.mk.injEq, List.not_mem_nil, or_false] at hm
  have hink : isInk c = true := by
    rcases hm with h | h | h | h | h | h | h | h <;> (rw [h.1]; rfl)
  have hplus : m ≠ "++" := by
    rcases hm with h | h | h | h | h | h | h | h <;> (rw [h.2]; decide)
  refine spells_token hink (by simpa using hplus) fun b rest _ _ => ⟨1, ?_⟩
  rcases hm with h | h | h | h | h | h | h | h <;> (rw [h.1, h.2]; cases rest <;> rfl)

theorem lexeme?_equals (b : Nat) (rest : List Char) :
    lexeme? b ('=' :: ' ' :: rest) = some ⟨.mark "=", 1, ' ' :: rest⟩ := rfl

theorem lexeme?_less (b : Nat) (rest : List Char) :
    lexeme? b ('<' :: ' ' :: rest) = some ⟨.mark "<", 1, ' ' :: rest⟩ := rfl

theorem lexeme?_increment (b : Nat) (rest : List Char) :
    lexeme? b ('+' :: '+' :: ')' :: rest) = some ⟨.mark "++", 2, ')' :: rest⟩ := rfl

theorem lexeme?_dot (hdigit : c.isDigit = false) (hdot : c ≠ '.') (b : Nat) (rest : List Char) :
    lexeme? b ('.' :: c :: rest) = some ⟨.mark ".", 1, c :: rest⟩ := by
  have hstart : startsName '.' = false := by decide
  simp [lexeme?, hdigit, hstart, mark?, marks, Text.stripPrefix?, hdot.symm, openBrace, closeBrace,
    marksOff]
  rfl

theorem lexeme?_plus (hplus : c ≠ '+') (hequals : c ≠ '=') (b : Nat) (rest : List Char) :
    lexeme? b ('+' :: c :: rest) = some ⟨.mark "+", 1, c :: rest⟩ := by
  have hstart : startsName '+' = false := by decide
  simp [lexeme?, hstart, mark?, marks, Text.stripPrefix?, hplus.symm, hequals.symm, openBrace,
    closeBrace, marksOff]
  rfl

theorem lexeme?_minus (hminus : c ≠ '-') (hequals : c ≠ '=') (b : Nat) (rest : List Char) :
    lexeme? b ('-' :: c :: rest) = some ⟨.mark "-", 1, c :: rest⟩ := by
  have hstart : startsName '-' = false := by decide
  simp [lexeme?, hstart, mark?, marks, Text.stripPrefix?, hminus.symm, hequals.symm, openBrace,
    closeBrace, marksOff]
  rfl

/-- A text that begins with a space. -/
def BeginsBlank (rest : List Char) : Prop :=
  ∃ cs, rest = ' ' :: cs

theorem spells_equals : Spells [' ', '=', ' '] [.mark "="] ok := by
  have hequals : Spells ['='] [.mark "="] BeginsBlank :=
    spells_token rfl (by simp) fun b rest _ ⟨cs, hcs⟩ => ⟨1, by rw [hcs]; exact lexeme?_equals b cs⟩
  exact (@spells_space fun _ => True).append
    (hequals.append spells_space fun rest _ => ⟨rest, rfl⟩) fun _ _ => trivial

theorem spells_less : Spells [' ', '<', ' '] [.mark "<"] ok := by
  have hless : Spells ['<'] [.mark "<"] BeginsBlank :=
    spells_token rfl (by simp) fun b rest _ ⟨cs, hcs⟩ => ⟨1, by rw [hcs]; exact lexeme?_less b cs⟩
  exact (@spells_space fun _ => True).append
    (hless.append spells_space fun rest _ => ⟨rest, rfl⟩) fun _ _ => trivial

/-- A text that begins with neither a digit nor a point. -/
def NoDigit (rest : List Char) : Prop :=
  ∃ c cs, rest = c :: cs ∧ c.isDigit = false ∧ c ≠ '.'

theorem spells_dot : Spells ['.'] [.mark "."] NoDigit :=
  spells_token rfl (by simp) fun b rest _ ⟨c, cs, hcs, hdigit, hdot⟩ =>
    ⟨1, by rw [hcs]; exact lexeme?_dot hdigit hdot b cs⟩

/-- A text that begins like a number or a string. -/
def BeginsLiteral (rest : List Char) : Prop :=
  ∃ c cs, rest = c :: cs ∧ c ≠ '+' ∧ c ≠ '-' ∧ c ≠ '='

theorem spells_plus : Spells ['+'] [.mark "+"] BeginsLiteral :=
  spells_token rfl (by simp) fun b rest _ ⟨c, cs, hcs, hplus, _, hequals⟩ =>
    ⟨1, by rw [hcs]; exact lexeme?_plus hplus hequals b cs⟩

theorem spells_minus : Spells ['-'] [.mark "-"] BeginsLiteral :=
  spells_token rfl (by simp) fun b rest _ ⟨c, cs, hcs, _, hminus, hequals⟩ =>
    ⟨1, by rw [hcs]; exact lexeme?_minus hminus hequals b cs⟩

/-! ### Characters of names -/

theorem continuesName_of_startsName (h : startsName c = true) : continuesName c = true := by
  simp only [startsName, Bool.or_eq_true, beq_iff_eq] at h
  simp only [continuesName, Text.isIdContinue, Bool.or_eq_true, beq_iff_eq]
  tauto

theorem ne_of_continuesName {d : Char} (h : continuesName c = true) (hd : continuesName d = false) : c ≠ d := by
  rintro rfl
  rw [h] at hd
  cases hd

/-- A digit continues names and starts none. -/
theorem continuesName_of_isDigit (h : c.isDigit = true) : continuesName c = true ∧ startsName c = false := by
  rw [Char.isDigit, Bool.and_eq_true, decide_eq_true_eq, decide_eq_true_eq] at h
  have hrange : '0' ≤ c ∧ c ≤ '9' := h
  exact Text.of_codes (P := fun c => continuesName c = true ∧ startsName c = false) (by decide) hrange

theorem isDigit_of_startsName (h : startsName c = true) : c.isDigit = false := by
  by_contra hdigit
  rw [(continuesName_of_isDigit (by simpa using hdigit)).2] at h
  cases h

theorem notBlank_of_continuesName (h : continuesName c = true) : Text.isBlank c = false := by
  have hletters : Text.letters.apart Text.blanks = true := by decide +kernel
  have hmarks : Text.marks.apart Text.blanks = true := by decide +kernel
  simp only [continuesName, Bool.or_eq_true, beq_iff_eq] at h
  rcases h with ((h | rfl) | rfl) | rfl
  · exact (Text.contains_of_isIdContinue h).elim (Text.CodeSet.not_contains_of_apart hletters)
      (Text.CodeSet.not_contains_of_apart hmarks)
  · decide
  · decide
  · decide

theorem isInk_of_continuesName (h : continuesName c = true) : isInk c = true := by
  have hblank := notBlank_of_continuesName h
  have hline : ∀ d, Text.isBlank d = true → c ≠ d := by
    rintro d hd rfl
    rw [hblank] at hd
    cases hd
  -- the two characters without width are blanks of scripts only
  have hspace : c ≠ '\u200b' := ne_of_continuesName h (by decide +kernel)
  have hmark : c ≠ '\ufeff' := ne_of_continuesName h (by decide +kernel)
  have hslash : c ≠ '/' := ne_of_continuesName h (by decide)
  simp [isInk, isLineEnd, isBlank, hblank, hspace, hmark, hslash, hline '\n' (by decide),
    hline '\r' (by decide), hline '\u2028' (by decide), hline '\u2029' (by decide)]

/-! ### Names -/

/-- A text in front of which a name ends. -/
def EndsName (rest : List Char) : Prop :=
  ∀ c cs, rest = c :: cs → continuesName c = false ∧ c ≠ '\\'

theorem spelled?_name {ok : Char → Bool} {n : Nat} (hn : cs.length ≤ n)
    (hcs : ∀ c ∈ cs, continuesName c = true) (hhead : ∀ c ∈ cs.head?, ok c = true)
    (hok : ∀ c, continuesName c = false → ok c = false) (hrest : EndsName rest) :
    ∃ size, spelled? ok n (cs ++ rest) = some ⟨cs, size, false, rest⟩ := by
  induction cs generalizing n ok with
  | nil =>
    cases rest with
    | nil => exact ⟨0, by simp [spelled?]⟩
    | cons c rest =>
      obtain ⟨hc, hslash⟩ := hrest c rest rfl
      cases n with
      | zero => exact ⟨0, by simp [spelled?]⟩
      | succ n => exact ⟨0, by simp [spelled?, hslash, hok c hc]⟩
  | cons c cs ih =>
    obtain ⟨n, rfl⟩ : ∃ k, n = k + 1 := ⟨n - 1, by simp at hn; omega⟩
    have hslash : c ≠ '\\' := ne_of_continuesName (hcs c (List.mem_cons_self ..)) (by decide)
    have htail : ∀ x ∈ cs, continuesName x = true := fun x hx => hcs x (List.mem_cons_of_mem c hx)
    obtain ⟨size, hsize⟩ := @ih continuesName n (by simpa using hn) htail
      (fun x hx => htail x (List.mem_of_head? hx)) (fun _ h => h)
    refine ⟨c.utf8Size + size, ?_⟩
    simp [spelled?, hslash, hhead c rfl, hsize, Spelled.cons]

theorem lexeme?_name (hstart : startsName c = true) (hcs : ∀ d ∈ c :: cs, continuesName d = true)
    (hrest : EndsName rest) (hb : (c :: cs).length ≤ b) :
    ∃ size, lexeme? b (c :: cs ++ rest) = some ⟨.name (.ofList (c :: cs)) false, size, rest⟩ := by
  have hends : ∀ d, continuesName d = false → startsName d = false := by
    intro d hd
    by_contra h
    rw [continuesName_of_startsName (by simpa using h)] at hd
    cases hd
  obtain ⟨size, hsize⟩ := spelled?_name hb hcs (fun d hd => Option.some.inj hd ▸ hstart) hends hrest
  have hdigit := isDigit_of_startsName hstart
  have hdot : c ≠ '.' := ne_of_continuesName (hcs c (List.mem_cons_self ..)) (by decide)
  have hquote : c ≠ '"' ∧ c ≠ '\'' ∧ c ≠ '`' ∧ c ≠ '#' := by
    refine ⟨?_, ?_, ?_, ?_⟩ <;> exact ne_of_continuesName (hcs c (List.mem_cons_self ..)) (by decide)
  refine ⟨size, ?_⟩
  rw [List.cons_append] at hsize ⊢
  simp [lexeme?, hdigit, hdot, hquote, hstart, nameToken?, name?, hsize]

/-! ### Strings -/

theorem not_isSurrogate (c : Char) : isSurrogate c.toNat = false := by
  have h := c.valid
  simp only [UInt32.isValidChar, Nat.isValidChar] at h
  simp only [isSurrogate, Bool.and_eq_false_iff, decide_eq_false_iff_not, Char.toNat]
  omega

theorem pointsText_toNat (cs : List Char) : pointsText (cs.map Char.toNat) = .ofList cs := by
  have hany : (cs.map Char.toNat).any isSurrogate = false := by
    simp [not_isSurrogate]
  have hback : (cs.map Char.toNat).map Char.ofNat = cs := by
    rw [List.map_map]
    exact (List.map_congr_left fun c _ => Char.ofNat_toNat c).trans (List.map_id cs)
  simp only [pointsText, hany, Bool.false_eq_true, if_false, hback]

theorem hexNumber?_hexByte (h : c.toNat < 32) :
    Text.hexNumber? ('0' :: '0' :: Text.hexByte c.toNat) = some c.toNat := by
  have hall : ∀ n < 32, Text.hexNumber? ('0' :: '0' :: Text.hexByte n) = some n := by decide
  exact hall _ h

theorem escape?_control (h : c.toNat < 32) (rest : List Char) :
    escape? ('u' :: '0' :: '0' :: Text.hexByte c.toNat ++ rest) = some ⟨[c.toNat], 5, rest⟩ := by
  have hhex := hexNumber?_hexByte h
  obtain ⟨x, y, hxy⟩ : ∃ x y, Text.hexByte c.toNat = [x, y] := ⟨_, _, rfl⟩
  have hhigh : isHighSurrogate c.toNat = false := by
    simp only [isHighSurrogate, Bool.and_eq_false_iff, decide_eq_false_iff_not]
    omega
  rw [hxy] at hhex ⊢
  have hpoint : codePoint? ('0' :: '0' :: x :: y :: rest) = some (c.toNat, 4, rest) := by
    simp [codePoint?, hhex]
  show unicodeEscape? ('0' :: '0' :: x :: y :: rest) = _
  rw [unicodeEscape?, hpoint]
  simp only [Option.bind_eq_bind, Option.bind_some, hhigh, Bool.false_and]
  split
  · split <;> rfl
  · rfl

theorem stringPoints?_escape {quote : Char} {n k size : Nat}
    (h : escape? (cs ++ rest) = some ⟨[k], size, rest⟩) :
    stringPoints? quote (n + 1) ('\\' :: cs ++ rest) =
      (stringPoints? quote n rest).map fun e => ⟨k :: e.points, 1 + size + e.size, e.rest⟩ := by
  rw [List.cons_append, stringPoints?, h]
  cases hn : stringPoints? quote n rest <;> simp [hn]

/-- One character in quotes is read back. -/
theorem stringPoints?_quoteChar (c : Char) (n : Nat) (rest : List Char) :
    ∃ size, stringPoints? '"' (n + 1) (Text.quoteChar c ++ rest) =
      (stringPoints? '"' n rest).map fun e => ⟨c.toNat :: e.points, size + e.size, e.rest⟩ := by
  rw [Text.quoteChar.eq_def]
  split
  · exact ⟨2, @stringPoints?_escape ['"'] rest '"' n 34 1 rfl⟩
  · exact ⟨2, @stringPoints?_escape ['\\'] rest '"' n 92 1 rfl⟩
  · exact ⟨2, @stringPoints?_escape ['n'] rest '"' n 10 1 rfl⟩
  · exact ⟨2, @stringPoints?_escape ['r'] rest '"' n 13 1 rfl⟩
  · exact ⟨2, @stringPoints?_escape ['t'] rest '"' n 9 1 rfl⟩
  · exact ⟨2, @stringPoints?_escape ['b'] rest '"' n 8 1 rfl⟩
  · exact ⟨2, @stringPoints?_escape ['f'] rest '"' n 12 1 rfl⟩
  · next hquote hslash hline hreturn _ _ _ =>
    split
    · next hcontrol => exact ⟨6, stringPoints?_escape (escape?_control hcontrol rest)⟩
    · refine ⟨c.utf8Size, ?_⟩
      rw [List.cons_append, List.nil_append, stringPoints?]
      · rw [if_neg hquote, if_neg fun h => h.elim hline hreturn]
        cases stringPoints? '"' n rest <;> rfl
      · exact hslash

theorem stringPoints?_quoted {n : Nat} (hn : cs.length < n) (rest : List Char) :
    ∃ size, stringPoints? '"' n (cs.flatMap Text.quoteChar ++ '"' :: rest) =
      some ⟨cs.map Char.toNat, size, rest⟩ := by
  induction cs generalizing n with
  | nil =>
    obtain ⟨n, rfl⟩ : ∃ k, n = k + 1 := ⟨n - 1, by simp at hn; omega⟩
    exact ⟨1, by simp [stringPoints?]⟩
  | cons c cs ih =>
    obtain ⟨n, rfl⟩ : ∃ k, n = k + 1 := ⟨n - 1, by simp at hn; omega⟩
    obtain ⟨size, hsize⟩ := ih (n := n) (by simpa using hn)
    obtain ⟨k, hk⟩ := stringPoints?_quoteChar c n (cs.flatMap Text.quoteChar ++ '"' :: rest)
    refine ⟨k + size, ?_⟩
    rw [List.flatMap_cons, List.append_assoc, hk, hsize]
    rfl

theorem length_le_flatMap_quoteChar (cs : List Char) :
    cs.length ≤ (cs.flatMap Text.quoteChar).length := by
  induction cs with
  | nil => exact Nat.le_refl 0
  | cons c cs ih =>
    have hc : 1 ≤ (Text.quoteChar c).length := by
      rw [Text.quoteChar.eq_def]
      split <;> first | simp | (split <;> simp)
    rw [List.flatMap_cons, List.length_append, List.length_cons]
    omega

theorem lexeme?_quoted (s : String) (hb : (Text.quoted s).toList.length ≤ b) (rest : List Char) :
    ∃ size, lexeme? b ((Text.quoted s).toList ++ rest) = some ⟨.string s, size, rest⟩ := by
  rw [Text.quoted, String.toList_ofList] at hb ⊢
  have hlen := length_le_flatMap_quoteChar s.toList
  obtain ⟨size, hsize⟩ := @stringPoints?_quoted s.toList b
    (by simp only [List.cons_append, List.length_cons, List.length_append] at hb; omega) rest
  refine ⟨1 + size, ?_⟩
  have htext : (('"' :: s.toList.flatMap Text.quoteChar ++ ['"']) ++ rest) =
      '"' :: (s.toList.flatMap Text.quoteChar ++ '"' :: rest) := by simp
  have hquote : '"'.isDigit = false := by decide
  rw [htext]
  simp [lexeme?, string?, hsize, pointsText_toNat, hquote]

theorem spells_quoted (s : String) : Spells (Text.quoted s).toList [.string s] ok := by
  have htext : (Text.quoted s).toList = '"' :: (s.toList.flatMap Text.quoteChar ++ ['"']) := by
    rw [Text.quoted, String.toList_ofList, List.cons_append]
  rw [htext]
  refine spells_token rfl (by simp) fun b rest hb _ => ?_
  rw [← htext] at hb ⊢
  rw [List.length_append] at hb
  exact lexeme?_quoted s (by omega) rest

end Relabel.Script
