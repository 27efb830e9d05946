import Relabel.Markup.Token
import Relabel.Proofs.Text.Standing

/-!
# What tokens stand on

`Cuts n cs ts`: the text `cs`, which begins at the byte `n`, is cut into the texts of the tokens `ts`,
none of them empty, without a gap. The tokens of a document cut it: `cuts_of_tokens`.
-/

namespace Relabel

namespace Span
variable {lo hi lo' hi' : Nat} {s : Span} {ss ss' : List Span}

/-- Spans that are not empty and lie one after another between two offsets. -/
def Ascending (lo hi : Nat) : List Span → Prop
  | [] => lo ≤ hi
  | s :: ss => lo ≤ s.start ∧ s.start < s.stop ∧ Ascending s.stop hi ss

namespace Ascending

theorem le (h : Ascending lo hi ss) : lo ≤ hi := by
  induction ss generalizing lo with
  | nil => exact h
  | cons s ss ih =>
    obtain ⟨h1, h2, h3⟩ := h
    have := ih h3
    omega

theorem mono (h : Ascending lo hi ss) (hlo : lo' ≤ lo) (hhi : hi ≤ hi') : Ascending lo' hi' ss := by
  induction ss generalizing lo lo' with
  | nil => exact Nat.le_trans hlo (Nat.le_trans h hhi)
  | cons s ss ih =>
    obtain ⟨h1, h2, h3⟩ := h
    exact ⟨Nat.le_trans hlo h1, h2, ih h3 (Nat.le_refl _)⟩

theorem append {mid : Nat} (h : Ascending lo mid ss) (h' : Ascending mid hi ss') :
    Ascending lo hi (ss ++ ss') := by
  induction ss generalizing lo with
  | nil => exact h'.mono h (Nat.le_refl _)
  | cons s ss ih =>
    obtain ⟨h1, h2, h3⟩ := h
    exact ⟨h1, h2, ih h3⟩

theorem singleton (hlo : lo ≤ s.start) (hs : s.start < s.stop) (hhi : s.stop ≤ hi) :
    Ascending lo hi [s] :=
  ⟨hlo, hs, hhi⟩

theorem within (h : Ascending lo hi ss) (hs : s ∈ ss) : lo ≤ s.start ∧ s.stop ≤ hi := by
  induction ss generalizing lo with
  | nil => cases hs
  | cons t ss ih =>
    obtain ⟨h1, h2, h3⟩ := h
    rcases List.mem_cons.1 hs with rfl | hs
    · exact ⟨h1, h3.le⟩
    · have := ih h3 hs
      omega

theorem pairwise (h : Ascending lo hi ss) : ss.Pairwise fun s t => s.stop ≤ t.start := by
  induction ss generalizing lo with
  | nil => exact .nil
  | cons s ss ih =>
    obtain ⟨-, -, h⟩ := h
    exact List.pairwise_cons.2 ⟨fun t ht => (h.within ht).1, ih h⟩

theorem nodup (h : Ascending lo hi ss) : ss.Nodup := by
  induction ss generalizing lo with
  | nil => exact .nil
  | cons s ss ih =>
    obtain ⟨-, hs, h⟩ := h
    refine List.nodup_cons.2 ⟨fun hmem => ?_, ih h⟩
    exact absurd (h.within hmem).1 (Nat.not_le_of_lt hs)

end Ascending

end Span

namespace Markup
open Text
variable {n start : Nat} {c l : Char} {cs ds rest body more taken : List Char} {name tag : String}
  {a : Attribute} {as : List Attribute} {v : Piece} {t : Token} {ts : List Token}

/-! ### Attributes -/

/-- From the first byte of the name to the last of the value, or of the name if there is no value. -/
def Attribute.extent (a : Attribute) : Span :=
  ⟨a.name.span.start, (a.value.map (·.span.stop)).getD a.name.span.stop⟩

/-- An attribute stands in a text that begins at `n`: its name, which is not empty, and behind it and
at least one more character its value. -/
structure Attribute.On (n : Nat) (cs : List Char) (a : Attribute) : Prop where
  named : a.name.text ≠ ""
  name : a.name.Stands n cs
  behind : ∀ v ∈ a.value, ∃ front c back, cs = front ++ c :: back ∧ a.name.Stands n front ∧
    v.Stands (n + size (front ++ [c])) back

namespace Attribute.On

theorem append_right (h : a.On n cs) (ds : List Char) : a.On n (cs ++ ds) := by
  refine ⟨h.named, h.name.append_right ds, fun v hv => ?_⟩
  obtain ⟨front, c, back, rfl, hname, hvalue⟩ := h.behind v hv
  exact ⟨front, c, back ++ ds, by simp, hname, hvalue.append_right ds⟩

theorem append_left (h : a.On (n + size ds) cs) : a.On n (ds ++ cs) := by
  refine ⟨h.named, h.name.append_left, fun v hv => ?_⟩
  obtain ⟨front, c, back, rfl, hname, hvalue⟩ := h.behind v hv
  refine ⟨ds ++ front, c, back, by simp, hname.append_left, ?_⟩
  rwa [List.append_assoc, size_append, ← Nat.add_assoc]

theorem value (h : a.On n cs) (hv : v ∈ a.value) : v.Stands n cs := by
  obtain ⟨front, c, back, rfl, -, hvalue⟩ := h.behind v hv
  rw [List.append_cons]
  exact hvalue.append_left

theorem name_lt_value (h : a.On n cs) (hfit : n + size cs < UInt32.size) (hv : v ∈ a.value) :
    a.name.span.stop < v.span.start := by
  obtain ⟨front, c, back, rfl, hname, hvalue⟩ := h.behind v hv
  simp only [size_append, size_cons, size_nil] at hfit hvalue
  have hstop := hname.stop_le (by omega)
  have hstart := hvalue.start_le (by omega)
  have := c.utf8Size_pos
  omega

theorem extent_start_lt (h : a.On n cs) (hfit : n + size cs < UInt32.size) :
    a.extent.start < a.extent.stop := by
  have hname : a.name.span.start < a.name.span.stop := by
    rw [h.name.stop_eq hfit]
    have : a.name.text.toList ≠ [] := fun h0 => h.named (String.toList_eq_nil_iff.1 h0)
    have := mt size_eq_zero.1 this
    omega
  cases hv : a.value with
  | none => simpa [extent, hv] using hname
  | some v =>
    have hlt := h.name_lt_value hfit hv
    have hvalue := (h.value hv).stop_eq hfit
    simp only [extent, hv, Option.map_some, Option.getD_some]
    omega

theorem extent_within (h : a.On n cs) (hfit : n + size cs < UInt32.size) :
    n ≤ a.extent.start ∧ a.extent.stop ≤ n + size cs := by
  refine ⟨h.name.start_le hfit, ?_⟩
  cases hv : a.value with
  | none => simpa [extent, hv] using h.name.stop_le hfit
  | some v => simpa [extent, hv] using (h.value hv).stop_le hfit

end Attribute.On

/-- Attributes stand one after another in a text that begins at `n`. -/
inductive AllOn : Nat → List Char → List Attribute → Prop where
  | nil (n : Nat) (cs : List Char) : AllOn n cs []
  | cons {n : Nat} {cs rest : List Char} {a : Attribute} {as : List Attribute} (ha : a.On n cs)
      (has : AllOn (n + size cs) rest as) : AllOn n (cs ++ rest) (a :: as)

namespace AllOn

theorem append_left (h : AllOn (n + size ds) cs as) : AllOn n (ds ++ cs) as := by
  cases h with
  | nil => exact .nil ..
  | cons ha has =>
    rw [← List.append_assoc]
    refine .cons ha.append_left ?_
    rwa [size_append, ← Nat.add_assoc]

theorem append_right (h : AllOn n cs as) (ds : List Char) : AllOn n (cs ++ ds) as := by
  induction h with
  | nil => exact .nil ..
  | cons ha _ ih =>
    rw [List.append_assoc]
    exact .cons ha ih

theorem on (h : AllOn n cs as) (ha : a ∈ as) : a.On n cs := by
  induction h with
  | nil => cases ha
  | cons hb _ ih =>
    rcases List.mem_cons.1 ha with rfl | ha
    · exact hb.append_right _
    · exact (ih ha).append_left

theorem ascending (h : AllOn n cs as) (hfit : n + size cs < UInt32.size) :
    Span.Ascending n (n + size cs) (as.map Attribute.extent) := by
  induction h with
  | nil => exact Nat.le_add_right ..
  | @cons n cs rest a as ha _ ih =>
    rw [size_append, ← Nat.add_assoc] at hfit ⊢
    have hfirst : n + size cs < UInt32.size := by omega
    have hextent := ha.extent_within hfirst
    exact ⟨hextent.1, ha.extent_start_lt hfirst, (ih hfit).mono hextent.2 (Nat.le_refl _)⟩

end AllOn

theorem stands_quotedValue {q : Char} (hq : q.utf8Size = 1)
    (h : quotedValue name q start cs = .ok (v, rest)) :
    ∃ taken, q :: cs = taken ++ rest ∧ v.Stands start taken := by
  unfold quotedValue at h
  split at h
  · next value tail hc =>
    obtain ⟨rfl, rfl⟩ := Prod.mk.inj (Except.ok.inj h)
    refine ⟨[q] ++ value ++ [q], by simp [eq_append_of_cut? hc], ?_⟩
    have := Piece.stands_located start [q] value [q]
    rwa [size_cons, hq, size_nil] at this
  · cases h

theorem stands_value (h : value name start cs = .ok (v, rest)) :
    ∃ taken, cs = taken ++ rest ∧ v.Stands start taken := by
  unfold value at h
  split at h
  · exact stands_quotedValue (by decide) h
  · exact stands_quotedValue (by decide) h
  · obtain ⟨rfl, rfl⟩ := Prod.mk.inj (Except.ok.inj h)
    refine ⟨cs.takeWhile inBareValue, List.takeWhile_append_dropWhile.symm, ?_⟩
    simpa using Piece.stands_located_zero start (cs.takeWhile inBareValue) []

theorem on_attributeAt (h : attributeAt start c cs = .ok (a, rest)) :
    ∃ taken, c :: cs = taken ++ rest ∧ a.On start taken := by
  have hname : cs = cs.takeWhile inName ++ cs.dropWhile inName :=
    List.takeWhile_append_dropWhile.symm
  have hne : String.ofList (c :: cs.takeWhile inName) ≠ "" := by
    intro h0
    have := String.toList_eq_nil_iff.2 h0
    simp at this
  simp only [attributeAt] at h
  split at h
  · next more hmore =>
    have hblank : cs.dropWhile inName = (cs.dropWhile inName).takeWhile isAsciiBlank ++ '=' :: more :=
      hmore ▸ List.takeWhile_append_dropWhile.symm
    have hbody : more = more.takeWhile isAsciiBlank ++ more.dropWhile isAsciiBlank :=
      List.takeWhile_append_dropWhile.symm
    simp only [bind, Except.bind] at h
    split at h
    · cases h
    · next vr hv =>
      obtain ⟨v, r⟩ := vr
      obtain ⟨rfl, rfl⟩ := Prod.mk.inj (Except.ok.inj h)
      obtain ⟨taken, htaken, hstands⟩ := stands_value hv
      -- the text from the name to the value: blanks, the sign, blanks
      let gap := (cs.dropWhile inName).takeWhile isAsciiBlank ++ ['='] ++ more.takeWhile isAsciiBlank
      have hrest : cs.dropWhile inName = gap ++ more.dropWhile isAsciiBlank := by
        rw [hblank]
        simp [gap]
      have hoffset : start + (size (c :: cs) - size (more.dropWhile isAsciiBlank)) =
          start + size (c :: cs.takeWhile inName ++ gap) := by
        have := congrArg size hname
        have := congrArg size hrest
        simp only [size_append, size_cons] at *
        omega
      rw [hoffset] at hstands
      refine ⟨(c :: cs.takeWhile inName) ++ gap ++ taken, ?_, hne, ?_, fun w hw => ?_⟩
      · rw [List.append_assoc _ taken, ← htaken, List.append_assoc, ← hrest, List.cons_append, ← hname]
      · rw [List.append_assoc]
        exact Piece.stands_located_zero ..
      · obtain rfl := Option.some.inj hw
        -- the last character before the value is the sign or a blank
        have hgap : gap ≠ [] := by simp [gap]
        refine ⟨c :: cs.takeWhile inName ++ gap.dropLast, gap.getLast hgap, taken, ?_,
          Piece.stands_located_zero .., ?_⟩
        · rw [List.append_cons, List.append_assoc _ gap.dropLast, List.dropLast_append_getLast]
        · rwa [List.append_assoc, List.dropLast_append_getLast]
  · obtain ⟨rfl, rfl⟩ := Prod.mk.inj (Except.ok.inj h)
    refine ⟨c :: cs.takeWhile inName, by rw [List.cons_append, ← hname], hne, ?_, ?_⟩
    · simpa using Piece.stands_located_zero start (c :: cs.takeWhile inName) []
    · intro v hv
      cases hv

/-- The attributes of a start tag lie one after another in the text that is read for them. -/
theorem on_attributes {offset : Nat} {closing : Bool}
    (h : attributes tag start offset cs = .ok (as, closing, rest)) :
    ∃ taken, cs = taken ++ rest ∧ taken ≠ [] ∧ AllOn offset taken as := by
  fun_induction attributes tag start offset cs generalizing as closing rest with
  | case1 => cases h
  | case2 offset rest' =>
    simp only [Except.ok.injEq, Prod.mk.injEq] at h
    obtain ⟨rfl, -, rfl⟩ := h
    exact ⟨['>'], rfl, by simp, .nil ..⟩
  | case3 offset rest' =>
    simp only [Except.ok.injEq, Prod.mk.injEq] at h
    obtain ⟨rfl, -, rfl⟩ := h
    exact ⟨['/', '>'], rfl, by simp, .nil ..⟩
  | case4 offset c rest' _ _ _ ih =>
    obtain ⟨taken, rfl, -, hall⟩ := ih h
    exact ⟨[c] ++ taken, rfl, by simp, hall.append_left⟩
  | case5 => cases h
  | case6 offset c rest' =>
    rename_i a more ha _ next ih
    simp only [bind, Except.bind] at h
    split at h
    · cases h
    · next v hv =>
      obtain ⟨as', closing', r⟩ := v
      simp only [pure, Except.pure, Except.ok.injEq, Prod.mk.injEq] at h
      obtain ⟨rfl, -, rfl⟩ := h
      obtain ⟨first, hfirst, hona⟩ := on_attributeAt ha
      obtain ⟨taken, rfl, hne, hall⟩ := ih hv
      have hnext : next = offset + size first := by
        simp only [next, hfirst, size_append]
        omega
      exact ⟨first ++ taken, by rw [hfirst, List.append_assoc], by simp [hne], .cons hona (hnext ▸ hall)⟩

/-! ### Tokens -/

/-- `</` with a letter behind it and all up to the next `>`. -/
def IsEndTag (cs : List Char) : Prop :=
  ∃ l body, isAsciiLetter l = true ∧ '>' ∉ body ∧ cs = '<' :: '/' :: l :: body ++ ['>']

/-- A token stands on a text that begins at `n`. -/
def Token.On (n : Nat) (cs : List Char) : Token → Prop
  | .comment span => span = .ofOffsets n (n + size cs)
  | .text piece => piece = Piece.located n cs
  | .endTag _ span => span = .ofOffsets n (n + size cs) ∧ IsEndTag cs
  | .startTag head _ => head.startTag = .ofOffsets n (n + size cs) ∧ head.span = head.startTag ∧
      AllOn n cs head.attributes

/-- A text that begins at `n` is cut into the texts of some tokens. -/
inductive Cuts : Nat → List Char → List Token → Prop where
  | nil (n : Nat) : Cuts n [] []
  | cons {n : Nat} {cs rest : List Char} {t : Token} {ts : List Token} (hne : cs ≠ [])
      (ht : t.On n cs) (hts : Cuts (n + size cs) rest ts) : Cuts n (cs ++ rest) (t :: ts)

theorem not_mem_of_cut? {a b : List Char} (h : cut? [c] cs = some (a, b)) : c ∉ a := by
  induction cs generalizing a with
  | nil => simp [cut?] at h
  | cons d cs ih =>
    by_cases hd : c = d
    · simp only [cut?, stripPrefix?, hd, if_true, Option.some.injEq, Prod.mk.injEq] at h
      simp [← h.1]
    · simp only [cut?, stripPrefix?, if_neg hd, Option.map_eq_some_iff, Prod.exists, Prod.mk.injEq] at h
      obtain ⟨x, y, hxy, rfl, rfl⟩ := h
      simpa [hd] using ih hxy

theorem textRun_append (cs : List Char) : (textRun cs).1 ++ (textRun cs).2 = cs := by
  induction cs with
  | nil => rfl
  | cons c cs ih => simp only [textRun]; split <;> simp [ih]

theorem rawRun_append (tag cs : List Char) : (rawRun tag cs).1 ++ (rawRun tag cs).2 = cs := by
  induction cs with
  | nil => rfl
  | cons c cs ih => simp only [rawRun]; split <;> simp [ih]

theorem rawAfter_append (t : Token) (cs : List Char) :
    (rawAfter t cs).1 ++ (rawAfter t cs).2 = cs := by
  unfold rawAfter
  split
  · split
    · exact rawRun_append ..
    · rfl
  · rfl

theorem on_textAt (h : textAt start c cs = .ok (t, rest)) :
    ∃ taken, c :: cs = taken ++ rest ∧ taken ≠ [] ∧ t.On start taken := by
  obtain ⟨rfl, rfl⟩ := Prod.mk.inj (Except.ok.inj h)
  exact ⟨c :: (textRun cs).1, by rw [List.cons_append, textRun_append], by simp, rfl⟩

/-- A token that goes up to a word ends behind the first occurrence of the word. -/
theorem cut?_of_tokenUpTo {word before : List Char} {problem : MarkupProblem} {make : Span → Token}
    {total : Nat} (htotal : total = size (before ++ body))
    (h : tokenUpTo word problem make start total body = .ok (t, rest)) :
    ∃ inner, cut? word body = some (inner, rest) ∧
      before ++ body = before ++ inner ++ word ++ rest ∧
        t = make (.ofOffsets start (start + size (before ++ inner ++ word))) := by
  unfold tokenUpTo at h
  split at h
  · next inner tail hc =>
    obtain ⟨rfl, rfl⟩ := Prod.mk.inj (Except.ok.inj h)
    have hbody : before ++ body = before ++ inner ++ word ++ tail := by
      simp [eq_append_of_cut? hc]
    refine ⟨inner, hc, hbody, ?_⟩
    rw [htotal, hbody, size_append _ tail, Nat.add_sub_cancel]
  · cases h

theorem on_comment {word before : List Char} {problem : MarkupProblem} {total : Nat}
    (hne : before ≠ []) (htotal : total = size (before ++ body))
    (h : tokenUpTo word problem .comment start total body = .ok (t, rest)) :
    ∃ taken, before ++ body = taken ++ rest ∧ taken ≠ [] ∧ t.On start taken := by
  obtain ⟨inner, -, hbody, rfl⟩ := cut?_of_tokenUpTo htotal h
  exact ⟨before ++ inner ++ word, hbody, by simp [hne], rfl⟩

theorem on_endTagAt (hl : isAsciiLetter l = true)
    (h : endTagAt start l body = .ok (t, rest)) :
    ∃ taken, '<' :: '/' :: l :: body = taken ++ rest ∧ taken ≠ [] ∧ t.On start taken := by
  have hbody : body = body.takeWhile inName ++ body.dropWhile inName :=
    List.takeWhile_append_dropWhile.symm
  have hname : '>' ∉ body.takeWhile inName := fun hmem => by
    have := List.all_eq_true.1 (List.all_takeWhile (p := inName) (l := body)) _ hmem
    revert this
    decide
  have htotal : 2 + size (l :: body) =
      size ('<' :: '/' :: l :: body.takeWhile inName ++ body.dropWhile inName) := by
    have hopen : '<'.utf8Size = 1 ∧ '/'.utf8Size = 1 := by decide
    have := congrArg size hbody
    simp only [size_append, size_cons, List.cons_append, hopen] at this ⊢
    omega
  obtain ⟨inner, hcut, hrest, rfl⟩ := cut?_of_tokenUpTo htotal h
  refine ⟨_, ?_, ?_, rfl, l, body.takeWhile inName ++ inner, hl, ?_, by simp⟩
  · rw [← hrest, List.cons_append, List.cons_append, List.cons_append, ← hbody]
  · simp
  · exact List.not_mem_append hname (not_mem_of_cut? hcut)

theorem on_startTagAt (h : startTagAt start l body = .ok (t, rest)) :
    ∃ taken, '<' :: l :: body = taken ++ rest ∧ taken ≠ [] ∧ t.On start taken := by
  have hbody : body = body.takeWhile inName ++ body.dropWhile inName :=
    List.takeWhile_append_dropWhile.symm
  have hopen : '<'.utf8Size = 1 := by decide
  simp only [startTagAt, bind, Except.bind] at h
  split at h
  · cases h
  · next v hv =>
    obtain ⟨as, closing, r⟩ := v
    obtain ⟨rfl, rfl⟩ := Prod.mk.inj (Except.ok.inj h)
    obtain ⟨taken, htaken, -, hall⟩ := on_attributes hv
    obtain ⟨name, hname⟩ : ∃ name, name = '<' :: l :: body.takeWhile inName := ⟨_, rfl⟩
    have hoffset : start + 1 + size (l :: body.takeWhile inName) = start + size name := by
      rw [hname, size_cons '<', hopen, Nat.add_assoc]
    have hwhole : '<' :: l :: body = name ++ taken ++ r := by
      rw [List.append_assoc, ← htaken, hname, List.cons_append, List.cons_append, ← hbody]
    have hstop : start + 1 + (size (l :: body) - size r) = start + size (name ++ taken) := by
      have hsize := congrArg size hwhole
      rw [size_append _ r, size_cons, hopen] at hsize
      have hpos : 0 < size (name ++ taken) := by
        rw [size_append]
        omega
      omega
    refine ⟨name ++ taken, hwhole, by simp [hname], ?_, rfl, ?_⟩
    · rw [hstop]
    · exact AllOn.append_left (hoffset ▸ hall)

theorem on_tokenAt (h : tokenAt start c cs = .ok (t, rest)) :
    ∃ taken, c :: cs = taken ++ rest ∧ taken ≠ [] ∧ t.On start taken := by
  unfold tokenAt at h
  split at h
  · next hc =>
    subst hc
    split at h
    · exact on_comment (show ['<', '!', '-', '-'] ≠ [] by simp) rfl h
    · exact on_comment (show ['<', '!'] ≠ [] by simp) rfl h
    · exact on_comment (show ['<', '?'] ≠ [] by simp) rfl h
    · split at h
      · next hl => exact on_endTagAt hl h
      · exact on_textAt h
    · split at h
      · exact on_startTagAt h
      · exact on_textAt h
    · exact on_textAt h
  · exact on_textAt h

/-- The tokens of a text cut it, and none of its bytes is left out. -/
theorem cuts_of_tokens (h : tokens start cs = .ok ts) : Cuts start cs ts := by
  fun_induction tokens start cs generalizing ts with
  | case1 start =>
    obtain rfl := Except.ok.inj h
    exact .nil start
  | case2 => cases h
  | case3 start c cs =>
    rename_i t rest ht _ _ raw stop ih
    obtain ⟨taken, hcs, hne, hon⟩ := on_tokenAt ht
    have hstop : stop = start + size taken := by
      simp only [stop, hcs, size_append]
      omega
    have hrest : rest = raw ++ (rawAfter t rest).2 := (rawAfter_append t rest).symm
    simp only [bind, Except.bind] at h
    split at h
    · cases h
    · next more hmore =>
      have hmore := ih hmore
      rw [hstop] at hmore h
      rw [hcs]
      split at h
      · next hempty =>
        obtain rfl := Except.ok.inj h
        have hraw : raw = [] := List.isEmpty_iff.1 hempty
        rw [hraw, List.nil_append] at hrest
        rw [hraw, size_nil, Nat.add_zero, ← hrest] at hmore
        exact .cons hne hon hmore
      · next hempty =>
        obtain rfl := Except.ok.inj h
        rw [hrest]
        exact .cons hne hon (.cons (mt List.isEmpty_iff.2 hempty) rfl hmore)

end Markup

end Relabel
