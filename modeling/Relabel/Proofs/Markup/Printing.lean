import Relabel.Proofs.Markup.Sketch
import Relabel.Proofs.Text.Spelling

/-!
# Markup that is written and read back

The reader cuts the text of markup into the tokens `tokensOf` (`tokens_renderAll`): every token ends
where the next part was written, raw content and comments at their own end. From these tokens the
builder puts one node for each sketch into the element that is open (`foldl_tokensOfAll`), since an end
tag always meets its own element as the innermost one. Its offsets come back as words; these are the
offsets themselves as long as the text is shorter than `2 ^ 32` bytes (`wrappedAll_placeAll`).
-/

namespace Relabel.Markup
open Text

namespace Sketch
variable {n : Nat} {c l : Char} {cs rest more taken word : List Char} {tag : String}
  {as : List (String × Option String)} {s : Sketch} {ss : List Sketch} {ts : List Token}

/-! ### Tokens -/

/-- A text in front of which a text ends. -/
def EndsHere (rest : List Char) : Prop :=
  rest = [] ∨ endsText rest = true

mutual

/-- The tokens of markup that is written from the byte `n` on. -/
def tokensOf (n : Nat) : Sketch → List Token
  | comment body => [.comment (.ofOffsets n (n + size (render (comment body))))]
  | text t => [.text (Piece.located n t.toList)]
  | element tag attributes children =>
    let inner := n + size (renderStartTag tag attributes)
    let stop := n + size (render (element tag attributes children))
    .startTag (placeHead n tag attributes).wrapped false :: tokensOfAll inner children ++
      if voidTags.contains tag then [] else [.endTag tag (.ofOffsets (inner + size (renderAll children)) stop)]

def tokensOfAll (n : Nat) : List Sketch → List Token
  | [] => []
  | s :: ss => tokensOf n s ++ tokensOfAll (n + size (render s)) ss

end

theorem tokens_cons {t : Token} (hcs : c :: cs = taken ++ more) (ht : tokenAt n c cs = .ok (t, more))
    (hraw : rawAfter t more = ([], rest)) (hts : tokens (n + size taken) rest = .ok ts) :
    tokens n (c :: cs) = .ok (t :: ts) := by
  have hstop : size (c :: cs) - size more = size taken := by
    rw [hcs, size_append, Nat.add_sub_cancel]
  rw [tokens]
  split
  · next h => rw [ht] at h; cases h
  · next h =>
    rw [ht] at h
    obtain ⟨rfl, rfl⟩ := Prod.mk.inj (Except.ok.inj h)
    simp only [hraw, hstop, size_nil, Nat.add_zero, hts]
    rfl

theorem tokens_cons_raw {t : Token} {raw : List Char} (hcs : c :: cs = taken ++ more)
    (ht : tokenAt n c cs = .ok (t, more)) (hraw : rawAfter t more = (raw, rest)) (hne : raw ≠ [])
    (hts : tokens (n + size taken + size raw) rest = .ok ts) :
    tokens n (c :: cs) = .ok (t :: .text (Piece.located (n + size taken) raw) :: ts) := by
  have hstop : size (c :: cs) - size more = size taken := by
    rw [hcs, size_append, Nat.add_sub_cancel]
  have hempty : raw.isEmpty = false := by simpa using hne
  rw [tokens]
  split
  · next h => rw [ht] at h; cases h
  · next h =>
    rw [ht] at h
    obtain ⟨rfl, rfl⟩ := Prod.mk.inj (Except.ok.inj h)
    simp only [hraw, hstop, hts, bind, Except.bind, hempty]
    rfl

theorem textRun_append_of_endsHere (hcs : '<' ∉ cs) (hrest : EndsHere rest) :
    textRun (cs ++ rest) = (cs, rest) := by
  induction cs with
  | nil =>
    obtain rfl | hends := hrest
    · rfl
    · cases rest with
      | nil => cases hends
      | cons d ds => simp [textRun, hends]
  | cons d cs ih =>
    rw [List.mem_cons, not_or] at hcs
    have hends : endsText (d :: (cs ++ rest)) = false := by
      cases h : cs ++ rest <;> simp [endsText, Ne.symm hcs.1]
    simp [textRun, hends, ih hcs.2]

theorem tokens_text (hne : cs ≠ []) (hcs : '<' ∉ cs) (hrest : EndsHere rest)
    (hts : tokens (n + size cs) rest = .ok ts) :
    tokens n (cs ++ rest) = .ok (.text (Piece.located n cs) :: ts) := by
  obtain ⟨c, cs, rfl⟩ := List.exists_cons_of_ne_nil hne
  rw [List.mem_cons, not_or] at hcs
  refine tokens_cons (List.cons_append ..).symm ?_ (show rawAfter _ rest = ([], rest) from rfl) hts
  have hc : ¬ c = '<' := fun h => hcs.1 h.symm
  simp [tokenAt, hc, textAt, textRun_append_of_endsHere hcs.2 hrest]

/-- The end of a comment is not part of it, nor does it begin inside. -/
theorem cut?_comment (h : ¬ ['-', '-', '>'] <:+: cs) (rest : List Char) :
    cut? ['-', '-', '>'] (cs ++ '-' :: '-' :: '>' :: rest) = some (cs, rest) := by
  induction cs with
  | nil => simp [cut?, stripPrefix?]
  | cons c cs ih =>
    have hcs : ¬ ['-', '-', '>'] <:+: cs := fun hi => h (hi.trans (List.suffix_cons c cs).isInfix)
    have hnone : stripPrefix? ['-', '-', '>'] (c :: (cs ++ '-' :: '-' :: '>' :: rest)) = none := by
      rcases cs with _ | ⟨d, _ | ⟨e, cs⟩⟩
      · simp [stripPrefix?]
      · simp [stripPrefix?]
      · by_contra hsome
        obtain ⟨tail, htail⟩ := Option.ne_none_iff_exists'.1 hsome
        have := eq_append_of_stripPrefix? htail
        simp only [List.cons_append, List.nil_append, List.cons.injEq] at this
        obtain ⟨rfl, rfl, rfl, -⟩ := this
        exact h ⟨[], cs, rfl⟩
    rw [List.cons_append, cut?, hnone, ih hcs]
    rfl

theorem tokens_comment (hcs : ¬ "-->".toList <:+: cs)
    (hts : tokens (n + size ("<!--".toList ++ cs ++ "-->".toList)) rest = .ok ts) :
    tokens n ("<!--".toList ++ cs ++ "-->".toList ++ rest) =
      .ok (.comment (.ofOffsets n (n + size ("<!--".toList ++ cs ++ "-->".toList))) :: ts) := by
  have htext : "<!--".toList ++ cs ++ "-->".toList ++ rest =
      '<' :: '!' :: '-' :: '-' :: (cs ++ '-' :: '-' :: '>' :: rest) := by simp
  have hsize : size ('<' :: '!' :: '-' :: '-' :: (cs ++ '-' :: '-' :: '>' :: rest)) - size rest =
      size ("<!--".toList ++ cs ++ "-->".toList) := by
    rw [← htext, size_append _ rest, Nat.add_sub_cancel]
  rw [htext]
  refine tokens_cons htext.symm ?_ (show rawAfter _ rest = ([], rest) from rfl) hts
  simp only [tokenAt, if_true, tokenUpTo, cut?_comment hcs, hsize]

/-! ### Elements -/

/-- A character of a tag stays what it is in lower case and ends no name. -/
theorem inName_of_tag (h : ('a' ≤ c ∧ c ≤ 'z') ∨ ('0' ≤ c ∧ c ≤ '9') ∨ c = '-') :
    inName c = true ∧ lowerAscii c = c ∧ c ≠ '<' := by
  have hother : ([' ', '\t', '\n', '\x0c', '\r', '>', '/', '=', '<'].all fun d =>
      !decide (('a' ≤ d ∧ d ≤ 'z') ∨ ('0' ≤ d ∧ d ≤ '9') ∨ d = '-')) = true := by decide
  have hne : ∀ d ∈ [' ', '\t', '\n', '\x0c', '\r', '>', '/', '=', '<'], c ≠ d := by
    rintro d hd rfl
    have hnot := List.all_eq_true.1 hother c hd
    rw [decide_eq_true h] at hnot
    cases hnot
  have hupper : ¬ ('A' ≤ c ∧ c ≤ 'Z') := by
    rintro ⟨hA, hZ⟩
    rcases h with ⟨ha, -⟩ | ⟨-, h9⟩ | rfl
    · exact absurd (Char.le_trans ha hZ) (by decide)
    · exact absurd (Char.le_trans hA h9) (by decide)
    · exact absurd hA (by decide)
  refine ⟨inName_iff.2 ⟨?_, hne _ (by simp), hne _ (by simp), hne _ (by simp)⟩, ?_, hne _ (by simp)⟩
  · simp [isAsciiBlank, hne]
  · rw [lowerAscii, if_neg (by simpa using hupper)]

/-- A tag as it is read: its first letter, the rest, and what they are good for. -/
theorem IsTag.exists (h : IsTag tag) : ∃ l cs, tag.toList = l :: cs ∧ isAsciiLetter l = true ∧
    (∀ d ∈ cs, inName d = true) ∧ lowercase (.ofList (l :: cs)) = tag ∧ '<' ∉ tag.toList := by
  obtain ⟨l, cs, htag, hl, hcs⟩ := h
  have hall : ∀ d ∈ tag.toList, inName d = true ∧ lowerAscii d = d ∧ d ≠ '<' := by
    intro d hd
    rw [htag] at hd
    rcases List.mem_cons.1 hd with rfl | hd
    · exact inName_of_tag (.inl hl)
    · exact inName_of_tag (hcs d hd)
  refine ⟨l, cs, htag, by simp [isAsciiLetter, hl.1, hl.2], fun d hd => ?_, ?_, fun h => ?_⟩
  · exact (hall d (htag ▸ List.mem_cons_of_mem _ hd)).1
  · rw [lowercase, String.toList_ofList, ← htag]
    rw [(List.map_congr_left fun d hd => (hall d hd).2.1 : _ = tag.toList.map id), List.map_id,
      String.ofList_toList]
  · exact (hall _ h).2.2 rfl

theorem tokenAt_of_isAsciiLetter (hl : isAsciiLetter l = true) (cs : List Char) :
    tokenAt n '<' (l :: cs) = startTagAt n l cs := by
  have hne : ∀ d ∈ ['!', '?', '/'], l ≠ d := by
    rintro d hd rfl
    have hother : (['!', '?', '/'].all fun d => !isAsciiLetter d) = true := by decide
    have hnot := List.all_eq_true.1 hother l hd
    rw [hl] at hnot
    cases hnot
  unfold tokenAt
  rw [if_pos rfl]
  split
  · next h => exact absurd (List.cons.inj h).1 (hne _ (by simp))
  · next h => exact absurd (List.cons.inj h).1 (hne _ (by simp))
  · next h => exact absurd (List.cons.inj h).1 (hne _ (by simp))
  · next h => exact absurd (List.cons.inj h).1 (hne _ (by simp))
  · next h =>
    obtain ⟨rfl, rfl⟩ := List.cons.inj h
    rw [if_pos hl]
  · next h => cases h

/-- The start tag of an element is read as one token. -/
theorem tokenAt_startTag (htag : IsTag tag) (has : ∀ a ∈ as, AttributeOk a) (rest : List Char) :
    ∃ cs, renderStartTag tag as ++ rest = '<' :: cs ∧
      tokenAt n '<' cs = .ok (.startTag (placeHead n tag as).wrapped false, rest) := by
  obtain ⟨l, cs, hlist, hl, hcs, hlower, -⟩ := htag.exists
  obtain ⟨tail, htail⟩ : ∃ tail, tail = as.flatMap renderAttribute ++ '>' :: rest := ⟨_, rfl⟩
  have htext : renderStartTag tag as ++ rest = '<' :: l :: (cs ++ tail) := by
    simp [renderStartTag, hlist, htail]
  refine ⟨l :: (cs ++ tail), htext, ?_⟩
  obtain ⟨htake, hdrop⟩ := takeWhile_append_of_follows hcs (htail ▸ follows_attributes has rest)
  have hopen : '<'.utf8Size = 1 := by decide
  have hsize : n + 1 + (size (l :: (cs ++ tail)) - size rest) = n + size (renderStartTag tag as) := by
    have := congrArg size htext
    have hpos : 0 < size (renderStartTag tag as) :=
      Nat.lt_of_lt_of_le (utf8Size_pos '<') (Nat.le_add_right ..)
    rw [size_append, size_cons '<', hopen] at this
    omega
  rw [tokenAt_of_isAsciiLetter hl, startTagAt]
  simp only [htake, hdrop, hlower]
  rw [htail, attributes_render has rest, ← htail]
  simp only [bind, Except.bind, pure, Except.pure, hsize, placeHead, Head.wrapped, Span.wrapped, hlist]

theorem tokens_endTag (htag : IsTag tag)
    (hts : tokens (n + size ('<' :: '/' :: tag.toList ++ ['>'])) rest = .ok ts) :
    tokens n ('<' :: '/' :: tag.toList ++ ['>'] ++ rest) =
      .ok (.endTag tag (.ofOffsets n (n + size ('<' :: '/' :: tag.toList ++ ['>']))) :: ts) := by
  obtain ⟨l, cs, hlist, hl, hcs, hlower, -⟩ := htag.exists
  have htext : '<' :: '/' :: tag.toList ++ ['>'] ++ rest = '<' :: '/' :: l :: (cs ++ '>' :: rest) := by
    simp [hlist]
  have hsize : 2 + size (l :: (cs ++ '>' :: rest)) - size rest =
      size ('<' :: '/' :: tag.toList ++ ['>']) := by
    have hopen : '<'.utf8Size = 1 ∧ '/'.utf8Size = 1 := by decide
    have := congrArg size htext
    rw [size_append _ rest, size_cons '<', size_cons '/' (l :: _), hopen.1, hopen.2] at this
    omega
  obtain ⟨htake, hdrop⟩ := takeWhile_append_of_head hcs (c := '>') (by decide) rest
  have hcut : cut? ['>'] ('>' :: rest) = some ([], rest) := by simp [cut?, stripPrefix?]
  rw [htext]
  refine tokens_cons htext.symm ?_ (show rawAfter _ rest = ([], rest) from rfl) hts
  simp only [tokenAt, if_true, hl, endTagAt, htake, hdrop, hlower, tokenUpTo, hcut, hsize]

theorem endsHere_endTag (tag : String) (rest : List Char) :
    EndsHere ('<' :: '/' :: tag.toList ++ ['>'] ++ rest) :=
  .inr (by simp [endsText])

theorem endsHere_startTag (htag : IsTag tag) (rest : List Char) :
    EndsHere (renderStartTag tag as ++ rest) := by
  obtain ⟨l, cs, hlist, hl, -⟩ := htag.exists
  exact .inr (by simp [renderStartTag, hlist, endsText, hl])

/-! ### Raw content -/

theorem startsWithWord_iff : startsWithWord word cs = true ↔
    ∃ u v, cs = u ++ v ∧ u.map lowerAscii = word.map lowerAscii := by
  induction word generalizing cs with
  | nil => simp [startsWithWord]
  | cons w word ih =>
    cases cs with
    | nil => simp [startsWithWord]
    | cons c cs =>
      simp only [startsWithWord, Bool.and_eq_true, beq_iff_eq, ih]
      constructor
      · rintro ⟨hw, u, v, rfl, hu⟩
        exact ⟨c :: u, v, rfl, by simp [hw, hu]⟩
      · rintro ⟨u, v, hcs, hu⟩
        cases u with
        | nil => cases hu
        | cons d u =>
          obtain ⟨rfl, rfl⟩ := List.cons.inj hcs
          rw [List.map_cons, List.map_cons] at hu
          exact ⟨(List.cons.inj hu).1.symm, u, v, rfl, (List.cons.inj hu).2⟩

/-- A word that is met before a character that it does not hold is met as a whole. -/
theorem startsWithWord_of_append {d : Char} (hd : ∀ w ∈ word, lowerAscii w ≠ lowerAscii d)
    (h : startsWithWord word (cs ++ d :: rest) = true) : startsWithWord word cs = true := by
  induction word generalizing cs with
  | nil => rfl
  | cons w word ih =>
    cases cs with
    | nil =>
      simp only [List.nil_append, startsWithWord, Bool.and_eq_true, beq_iff_eq] at h
      exact absurd h.1 (hd w (List.mem_cons_self ..))
    | cons c cs =>
      simp only [List.cons_append, startsWithWord, Bool.and_eq_true] at h ⊢
      exact ⟨h.1, ih (fun w hw => hd w (List.mem_cons_of_mem _ hw)) h.2⟩

theorem rawRun_append_of_not_mem {name : List Char} (hname : '<' ∉ name)
    (hcs : ¬ ∃ word, word <:+: cs ∧ word.map lowerAscii = ('<' :: '/' :: name).map lowerAscii)
    (rest : List Char) :
    rawRun name (cs ++ '<' :: '/' :: (name ++ rest)) = (cs, '<' :: '/' :: (name ++ rest)) := by
  induction cs with
  | nil =>
    have hstarts : startsWithWord ('<' :: '/' :: name) ('<' :: '/' :: (name ++ rest)) = true :=
      startsWithWord_iff.2 ⟨'<' :: '/' :: name, rest, rfl, rfl⟩
    rw [List.nil_append, rawRun, if_pos hstarts]
  | cons c cs ih =>
    have hnot : startsWithWord ('<' :: '/' :: name) (c :: (cs ++ '<' :: '/' :: (name ++ rest))) = false := by
      by_contra hstarts
      rw [Bool.not_eq_false, startsWithWord, Bool.and_eq_true] at hstarts
      have htail := startsWithWord_of_append (d := '<') ?_ hstarts.2
      · obtain ⟨u, v, rfl, hu⟩ := startsWithWord_iff.1 htail
        refine hcs ⟨c :: u, ⟨[], v, rfl⟩, ?_⟩
        rw [List.map_cons, hu, ← beq_iff_eq.1 hstarts.1]
        rfl
      · intro w hw heq
        obtain rfl : w = '<' := eq_of_lowerAscii_eq (by decide) (heq.trans (by decide))
        rcases List.mem_cons.1 hw with h | h
        · revert h; decide
        · exact hname h
    have hcs' : ¬ ∃ word, word <:+: cs ∧
        word.map lowerAscii = ('<' :: '/' :: name).map lowerAscii := by
      rintro ⟨word, hword, heq⟩
      exact hcs ⟨word, hword.trans (List.suffix_cons c cs).isInfix, heq⟩
    rw [List.cons_append, rawRun, hnot, ih hcs']
    simp

/-! ### Reading -/

theorem endsHere_render (hs : Ok s) (htext : isText s = false) (rest : List Char) :
    EndsHere (render s ++ rest) := by
  cases s with
  | comment body => exact .inr (by simp [render, endsText])
  | text t => cases htext
  | element tag attributes children =>
    rw [render, List.append_assoc, List.append_assoc]
    exact endsHere_startTag hs.1 _

/-- What may come after a text: no other text. -/
theorem endsHere_renderAll (hss : AllOk ss) (htext : ss.head?.any isText = false)
    (hrest : EndsHere rest) : EndsHere (renderAll ss ++ rest) := by
  cases ss with
  | nil => exact hrest
  | cons s ss =>
    rw [renderAll, List.append_assoc]
    exact endsHere_render hss.1 (by simpa using htext) _

theorem opens_placeHead (n : Nat) (tag : String) (as : List (String × Option String)) :
    opens (placeHead n tag as).wrapped false = !voidTags.contains tag := by
  rw [opens, Bool.false_or]
  rfl

theorem rawAfter_startTag (hvoid : voidTags.contains tag = false)
    (hraw : rawTags.contains tag = true) (cs : List Char) :
    rawAfter (.startTag (placeHead n tag as).wrapped false) cs = rawRun tag.toList cs := by
  have hboth : (opens (placeHead n tag as).wrapped false &&
      rawTags.contains (placeHead n tag as).wrapped.tag) = true := by
    rw [opens_placeHead, hvoid]
    exact hraw
  rw [rawAfter, if_pos hboth]
  rfl

theorem rawAfter_startTag_of_not (h : voidTags.contains tag = true ∨ rawTags.contains tag = false)
    (cs : List Char) : rawAfter (.startTag (placeHead n tag as).wrapped false) cs = ([], cs) := by
  have hnot : (opens (placeHead n tag as).wrapped false &&
      rawTags.contains (placeHead n tag as).wrapped.tag) = false := by
    rw [opens_placeHead]
    rcases h with h | h
    · rw [h]
      rfl
    · rw [show rawTags.contains (placeHead n tag as).wrapped.tag = false from h, Bool.and_false]
  rw [rawAfter, if_neg (Bool.eq_false_iff.1 hnot)]

theorem tokens_startTag (htag : IsTag tag) (has : ∀ a ∈ as, AttributeOk a)
    (h : voidTags.contains tag = true ∨ rawTags.contains tag = false)
    (hts : tokens (n + size (renderStartTag tag as)) rest = .ok ts) :
    tokens n (renderStartTag tag as ++ rest) =
      .ok (.startTag (placeHead n tag as).wrapped false :: ts) := by
  obtain ⟨cs, hcs, htoken⟩ := tokenAt_startTag (n := n) htag has rest
  rw [hcs]
  exact tokens_cons hcs.symm htoken (rawAfter_startTag_of_not h _) hts

/-- The start tag of an element with raw content is read with that content. -/
theorem tokens_rawElement {children : List Sketch} (htag : IsTag tag) (has : ∀ a ∈ as, AttributeOk a)
    (hvoid : voidTags.contains tag = false) (hraw : rawTags.contains tag = true)
    (hchildren : RawContent tag children)
    (hts : tokens (n + size (renderStartTag tag as) + size (renderAll children))
      ('<' :: '/' :: tag.toList ++ ['>'] ++ rest) = .ok ts) :
    tokens n (renderStartTag tag as ++ (renderAll children ++
        ('<' :: '/' :: tag.toList ++ ['>'] ++ rest))) =
      .ok (.startTag (placeHead n tag as).wrapped false ::
        (tokensOfAll (n + size (renderStartTag tag as)) children ++ ts)) := by
  obtain ⟨l, tl, -, -, -, -, hname⟩ := htag.exists
  obtain ⟨cs, hcs, htoken⟩ := tokenAt_startTag (n := n) htag has
    (renderAll children ++ ('<' :: '/' :: tag.toList ++ ['>'] ++ rest))
  have hrun : ∀ t : List Char, (¬ ∃ word, word <:+: t ∧
        word.map lowerAscii = ('<' :: '/' :: tag.toList).map lowerAscii) →
      rawAfter (.startTag (placeHead n tag as).wrapped false) (t ++ ('<' :: '/' :: tag.toList ++ ['>'] ++ rest)) =
        (t, '<' :: '/' :: tag.toList ++ ['>'] ++ rest) := by
    intro t ht
    rw [rawAfter_startTag hvoid hraw]
    have := rawRun_append_of_not_mem hname ht ('>' :: rest)
    simpa using this
  rw [hcs]
  obtain rfl | ⟨t, rfl, hne, hword⟩ := hchildren
  · have hnone := hrun [] (by rintro ⟨word, hword, heq⟩; simp_all)
    exact tokens_cons hcs.symm htoken hnone hts
  · have ht : renderAll [text t] = t.toList := by simp [renderAll, render]
    rw [ht] at hcs htoken hts
    exact tokens_cons_raw hcs.symm htoken (hrun _ hword) (mt String.toList_eq_nil_iff.1 hne) hts

/-- An element that has content is read if its start tag and its content are. -/
theorem tokens_element {children : List Sketch} (htag : IsTag tag)
    (hvoid : voidTags.contains tag = false)
    (hinside : ∀ {ts}, tokens (n + size (renderStartTag tag as) + size (renderAll children))
        ('<' :: '/' :: tag.toList ++ ['>'] ++ rest) = .ok ts →
      tokens n (renderStartTag tag as ++ (renderAll children ++
          ('<' :: '/' :: tag.toList ++ ['>'] ++ rest))) =
        .ok (.startTag (placeHead n tag as).wrapped false ::
          (tokensOfAll (n + size (renderStartTag tag as)) children ++ ts)))
    (hts : tokens (n + size (render (element tag as children))) rest = .ok ts) :
    tokens n (render (element tag as children) ++ rest) =
      .ok (tokensOf n (element tag as children) ++ ts) := by
  have hend : renderEndTag tag = '<' :: '/' :: tag.toList ++ ['>'] := by
    rw [renderEndTag, if_neg (Bool.eq_false_iff.1 hvoid)]
  have hsize : n + size (render (element tag as children)) =
      n + size (renderStartTag tag as) + size (renderAll children) +
        size ('<' :: '/' :: tag.toList ++ ['>']) := by
    rw [render, hend, size_append, size_append, Nat.add_assoc, Nat.add_assoc, Nat.add_assoc]
  have htokens : tokensOf n (element tag as children) ++ ts =
      .startTag (placeHead n tag as).wrapped false ::
        (tokensOfAll (n + size (renderStartTag tag as)) children ++
          .endTag tag (.ofOffsets (n + size (renderStartTag tag as) + size (renderAll children))
            (n + size (render (element tag as children)))) :: ts) := by
    rw [tokensOf, if_neg (Bool.eq_false_iff.1 hvoid)]
    simp
  have htext : render (element tag as children) ++ rest =
      renderStartTag tag as ++ (renderAll children ++ ('<' :: '/' :: tag.toList ++ ['>'] ++ rest)) := by
    rw [render, hend, List.append_assoc, List.append_assoc]
  have htail := tokens_endTag htag (hsize ▸ hts)
  rw [← hsize] at htail
  rw [htokens, htext]
  exact hinside htail

mutual

/-- Markup is cut into its tokens. -/
theorem tokens_render : ∀ {s : Sketch} {n : Nat} {rest : List Char} {ts : List Token}, Ok s →
    (isText s = true → EndsHere rest) → tokens (n + size (render s)) rest = .ok ts →
    tokens n (render s ++ rest) = .ok (tokensOf n s ++ ts)
  | comment body, n, rest, ts, hs, _, hts => tokens_comment hs hts
  | text t, n, rest, ts, hs, hrest, hts =>
    tokens_text (mt String.toList_eq_nil_iff.1 hs.1) hs.2 (hrest rfl) hts
  | element tag as children, n, rest, ts, ⟨htag, has, hvoid, hchildren⟩, _, hts => by
    cases hv : voidTags.contains tag with
    | true =>
      obtain rfl := hvoid hv
      have htext : render (element tag as []) = renderStartTag tag as := by
        rw [render, renderEndTag, if_pos hv, renderAll, List.append_nil, List.append_nil]
      rw [htext] at hts
      rw [htext, tokensOf, if_pos hv]
      exact tokens_startTag htag has (.inl hv) hts
    | false =>
      refine tokens_element htag hv (fun hts => ?_) hts
      cases hraw : rawTags.contains tag with
      | true =>
        rw [if_pos hraw] at hchildren
        exact tokens_rawElement htag has hv hraw hchildren hts
      | false =>
        rw [if_neg (Bool.eq_false_iff.1 hraw)] at hchildren
        exact tokens_startTag htag has (.inr hraw)
          (tokens_renderAll hchildren (endsHere_endTag tag rest) hts)

theorem tokens_renderAll : ∀ {ss : List Sketch} {n : Nat} {rest : List Char} {ts : List Token},
    AllOk ss → EndsHere rest → tokens (n + size (renderAll ss)) rest = .ok ts →
    tokens n (renderAll ss ++ rest) = .ok (tokensOfAll n ss ++ ts)
  | [], _, _, _, _, _, hts => hts
  | s :: ss, n, rest, ts, ⟨hs, htext, hss⟩, hrest, hts => by
    rw [renderAll, size_append, ← Nat.add_assoc] at hts
    have hmore := tokens_renderAll hss hrest hts
    rw [renderAll, List.append_assoc, tokensOfAll, List.append_assoc]
    exact tokens_render hs (fun h => endsHere_renderAll hss (htext h) hrest) hmore

end

/-! ### Building -/

theorem foldl_add_cons {roots ns : List Node} {o : Opened} {os : List Opened} :
    ns.foldl Builder.add ⟨roots, o :: os⟩ = ⟨roots, { o with children := ns.reverse ++ o.children } :: os⟩ := by
  induction ns generalizing o with
  | nil => rfl
  | cons n ns ih => rw [List.foldl_cons, Builder.add, ih]; simp

theorem foldl_add_nil {roots ns : List Node} :
    ns.foldl Builder.add ⟨roots, []⟩ = ⟨ns.reverse ++ roots, []⟩ := by
  induction ns generalizing roots with
  | nil => rfl
  | cons n ns ih => rw [List.foldl_cons, Builder.add, ih]; simp

/-- An end tag closes the element whose tag it bears if that one is the innermost. -/
theorem step_endTag {head : Head} {children : List Node} {roots : List Node} {os : List Opened}
    {span : Span} : Builder.step ⟨roots, ⟨head, children⟩ :: os⟩ (.endTag head.tag span) =
      Builder.add ⟨roots, os⟩
        (.element { head with span := ⟨head.span.start, span.stop⟩ } children.reverse) := by
  simp [Builder.step, Builder.endTag, List.findIdx?_cons, Builder.closeMany, Builder.close]

mutual

/-- The tokens of markup put one node into the innermost open element. -/
theorem foldl_tokensOf : ∀ {s : Sketch} {n : Nat} {b : Builder}, Ok s →
    (tokensOf n s).foldl Builder.step b = b.add (place n s).wrapped
  | comment _, _, _, _ => rfl
  | text t, n, b, _ => by
    rw [tokensOf, place, Node.wrapped, Piece.wrapped_written]
    rfl
  | element tag as children, n, b, ⟨htag, _, hvoid, hchildren⟩ => by
    obtain ⟨roots, opened⟩ := b
    rw [tokensOf, place, Node.wrapped]
    cases hv : voidTags.contains tag with
    | true =>
      obtain rfl := hvoid hv
      have htext : render (element tag as []) = renderStartTag tag as := by
        rw [render, renderEndTag, if_pos hv, renderAll, List.append_nil, List.append_nil]
      have hnot : ¬ opens (placeHead n tag as).wrapped false = true := by
        rw [opens_placeHead, hv]
        exact Bool.false_ne_true
      rw [htext, if_pos rfl, tokensOfAll, placeAll, List.append_nil, List.foldl_cons, Builder.step,
        if_neg hnot]
      rfl
    | false =>
      have hopen : Builder.step ⟨roots, opened⟩ (.startTag (placeHead n tag as).wrapped false) =
          ⟨roots, ⟨(placeHead n tag as).wrapped, []⟩ :: opened⟩ := by
        rw [Builder.step, if_pos (by rw [opens_placeHead, hv]; rfl)]
      -- raw text is one token, anything else is read by the induction hypothesis
      have hinside : (tokensOfAll (n + size (renderStartTag tag as)) children).foldl Builder.step
            ⟨roots, ⟨(placeHead n tag as).wrapped, []⟩ :: opened⟩ =
          (wrappedAll (placeAll (n + size (renderStartTag tag as)) children)).foldl Builder.add
            ⟨roots, ⟨(placeHead n tag as).wrapped, []⟩ :: opened⟩ := by
        cases hraw : rawTags.contains tag with
        | true =>
          rw [if_pos hraw] at hchildren
          obtain rfl | ⟨t, rfl, -, -⟩ := hchildren
          · rfl
          · simp [tokensOfAll, tokensOf, placeAll, place, wrappedAll, Node.wrapped, Piece.wrapped_written,
              Builder.step]
        | false =>
          rw [if_neg (Bool.eq_false_iff.1 hraw)] at hchildren
          exact foldl_tokensOfAll hchildren
      rw [List.cons_append, List.foldl_cons, List.foldl_append, hopen, hinside, foldl_add_cons]
      simp only [Bool.false_eq_true, if_false, List.foldl_cons, List.foldl_nil]
      have hclose : Builder.step ⟨roots, ⟨(placeHead n tag as).wrapped,
            (wrappedAll (placeAll (n + size (renderStartTag tag as)) children)).reverse ++ []⟩ :: opened⟩
          (.endTag tag (.ofOffsets (n + size (renderStartTag tag as) + size (renderAll children))
            (n + size (render (element tag as children))))) = _ := step_endTag
      rw [hclose, List.append_nil, List.reverse_reverse]
      rfl

theorem foldl_tokensOfAll : ∀ {ss : List Sketch} {n : Nat} {b : Builder}, AllOk ss →
    (tokensOfAll n ss).foldl Builder.step b = (wrappedAll (placeAll n ss)).foldl Builder.add b
  | [], _, _, _ => rfl
  | s :: ss, n, b, ⟨hs, _, hss⟩ => by
    rw [tokensOfAll, List.foldl_append, foldl_tokensOf hs, foldl_tokensOfAll hss, placeAll, wrappedAll,
      List.foldl_cons]

end

theorem ofTokens_tokensOfAll (hss : AllOk ss) (size : Nat) :
    ofTokens size (tokensOfAll 0 ss) = wrappedAll (placeAll 0 ss) := by
  rw [ofTokens, foldl_tokensOfAll hss, foldl_add_nil]
  simp [Builder.finish, Builder.closeMany]

/-! ### Offsets below the last word -/

theorem wrapped_placeAttribute_of_lt {a : String × Option String}
    (hfit : n + size (renderAttribute a) < UInt32.size) :
    (placeAttribute n a).wrapped = placeAttribute n a := by
  have hspace : ' '.utf8Size = 1 := by decide
  obtain ⟨name, _ | value⟩ := a
  · simp only [renderAttribute, size_cons, hspace] at hfit
    simp only [placeAttribute, Attribute.wrapped, Option.map_none]
    rw [Piece.wrapped_written_of_lt (by omega)]
  · have hmarks : '='.utf8Size = 1 ∧ '"'.utf8Size = 1 := by decide
    simp only [renderAttribute, size_append, size_cons, size_nil, hspace, hmarks] at hfit
    simp only [placeAttribute, Attribute.wrapped, Option.map_some]
    rw [Piece.wrapped_written_of_lt (by omega), Piece.wrapped_written_of_lt (by omega)]

theorem map_wrapped_placeAttributes (hfit : n + size (as.flatMap renderAttribute) < UInt32.size) :
    (placeAttributes n as).map Attribute.wrapped = placeAttributes n as := by
  induction as generalizing n with
  | nil => rfl
  | cons a as ih =>
    rw [List.flatMap_cons, size_append, ← Nat.add_assoc] at hfit
    rw [placeAttributes, List.map_cons, ih hfit, wrapped_placeAttribute_of_lt (by omega)]

theorem wrapped_placeHead (hfit : n + size (renderStartTag tag as) < UInt32.size) :
    (placeHead n tag as).wrapped = placeHead n tag as := by
  have hattributes : n + 1 + size tag.toList + size (as.flatMap renderAttribute) ≤
      n + size (renderStartTag tag as) := by
    have hopen : '<'.utf8Size = 1 := by decide
    simp only [renderStartTag, size_append, size_cons, hopen]
    omega
  simp only [placeHead, Head.wrapped]
  rw [map_wrapped_placeAttributes (by omega), Span.wrapped_of_lt (Nat.le_add_right ..) hfit]

mutual

theorem wrapped_place : ∀ {s : Sketch} {n : Nat}, n + size (render s) < UInt32.size →
    (place n s).wrapped = place n s
  | comment body, n, hfit => by
    rw [place, Node.wrapped, Span.wrapped_of_lt (Nat.le_add_right ..) hfit]
  | text t, n, hfit => by
    rw [place, Node.wrapped, Piece.wrapped_written_of_lt hfit]
  | element tag as children, n, hfit => by
    have hsize : size (render (element tag as children)) =
        size (renderStartTag tag as) + size (renderAll children) + size (renderEndTag tag) := by
      rw [render, size_append, size_append]
    have hchildren : wrappedAll (placeAll (n + size (renderStartTag tag as)) children) = _ :=
      wrappedAll_placeAll (by omega)
    have hhead : (placeHead n tag as).wrapped = _ := wrapped_placeHead (by omega)
    have hspan : (⟨n, n + size (render (element tag as children))⟩ : Span).wrapped = _ :=
      Span.wrapped_of_lt (Nat.le_add_right ..) hfit
    show Node.element { (placeHead n tag as).wrapped with span := Span.wrapped _ } (wrappedAll _) = _
    rw [hspan, hhead]
    exact congrArg _ hchildren

/-- The offsets of a short text are words. -/
theorem wrappedAll_placeAll : ∀ {ss : List Sketch} {n : Nat}, n + size (renderAll ss) < UInt32.size →
    wrappedAll (placeAll n ss) = placeAll n ss
  | [], _, _ => rfl
  | s :: ss, n, hfit => by
    rw [renderAll, size_append, ← Nat.add_assoc] at hfit
    rw [placeAll, wrappedAll, wrapped_place (by omega), wrappedAll_placeAll hfit]

end

end Sketch

open Sketch

theorem read_eq_ok {source : String} {ts : List Token} (h : tokens 0 source.toList = .ok ts)
    (id : String) : read id source = .ok ⟨id, ofTokens (size source.toList) ts⟩ := by
  rw [read, h]

theorem read_renderAll {ss : List Sketch} (hss : AllOk ss) (id : String) :
    read id (.ofList (renderAll ss)) = .ok ⟨id, wrappedAll (placeAll 0 ss)⟩ := by
  have hend : tokens (0 + size (renderAll ss)) [] = .ok [] := by rw [tokens]
  have htokens := tokens_renderAll hss (.inl rfl) hend
  rw [List.append_nil, List.append_nil] at htokens
  rw [read_eq_ok (by rwa [String.toList_ofList]) id, ofTokens_tokensOfAll hss]

/-- Markup that is written and read back is the tree that it was, every part of it at the word of the
place where it was written. In a text of less than `2 ^ 32` bytes these are the places themselves. -/
theorem read_render {ss : List Sketch} (hss : AllOk ss) (id : String) :
    read id (.ofList (renderAll ss)) = .ok ⟨id, wrappedAll (placeAll 0 ss)⟩ ∧
      (size (renderAll ss) < UInt32.size →
        read id (.ofList (renderAll ss)) = .ok ⟨id, placeAll 0 ss⟩) := by
  have hread := read_renderAll hss id
  refine ⟨hread, fun hfit => ?_⟩
  rw [hread, wrappedAll_placeAll (by omega)]

/-- An element inside one of its own tag, with raw content, a comment and an element without end tag
beside it. -/
theorem read_render_nested :
    AllOk [element "div" [("a", none), ("b", some "x>y")] [element "div" [] [text "t"],
        element "br" [] [], comment "-", element "script" [] [text "</ a<b"]]] ∧
      size (renderAll [element "div" [("a", none), ("b", some "x>y")]
        [element "div" [] [text "t"], element "br" [] [], comment "-",
          element "script" [] [text "</ a<b"]]]) < UInt32.size ∧
      read "d" (.ofList (renderAll [element "div" [("a", none), ("b", some "x>y")]
        [element "div" [] [text "t"], element "br" [] [], comment "-",
          element "script" [] [text "</ a<b"]]])) =
      .ok ⟨"d", placeAll 0 [element "div" [("a", none), ("b", some "x>y")]
        [element "div" [] [text "t"], element "br" [] [], comment "-",
          element "script" [] [text "</ a<b"]]]⟩ := by
  have hdiv : IsTag "div" := by decide
  have hbr : IsTag "br" := by decide
  have hscript : IsTag "script" := by decide
  have hcomment : ¬ "-->".toList <:+: "-".toList := by decide
  have hraw : RawContent "script" [text "</ a<b"] := by
    refine .inr ⟨"</ a<b", rfl, by decide, ?_⟩
    rintro ⟨word, hword, heq⟩
    have h1 : word.length ≤ 6 := hword.length_le
    have h2 : word.length = 8 := by simpa using congrArg List.length heq
    omega
  have hok : AllOk [element "div" [("a", none), ("b", some "x>y")] [element "div" [] [text "t"],
      element "br" [] [], comment "-", element "script" [] [text "</ a<b"]]] := by
    refine ⟨⟨hdiv, ?_, by decide, ?_⟩, by simp, trivial⟩
    · simp only [List.forall_mem_cons]
      exact ⟨by decide, by decide, by simp⟩
    · refine ⟨⟨hdiv, by simp, by decide, ⟨by decide, by decide⟩, by simp, trivial⟩, by simp [isText],
        ⟨hbr, by simp, by simp, trivial⟩, by simp [isText], hcomment, by simp [isText],
        ⟨hscript, by simp, by decide, hraw⟩, by simp, trivial⟩
  have hfit : size (renderAll [element "div" [("a", none), ("b", some "x>y")] [element "div" [] [text "t"],
      element "br" [] [], comment "-", element "script" [] [text "</ a<b"]]]) < UInt32.size := by
    decide +kernel
  exact ⟨hok, hfit, (read_render hok "d").2 hfit⟩

/-- A text of `2 ^ 32` letters is read with the span of no bytes at all. -/
theorem exists_read_render_ne :
    ∃ ss, AllOk ss ∧ read "d" (.ofList (renderAll ss)) ≠ .ok ⟨"d", placeAll 0 ss⟩ := by
  obtain ⟨cs, hcs⟩ : ∃ cs, cs = List.replicate UInt32.size 'a' := ⟨_, rfl⟩
  have hsize : size cs = UInt32.size := by
    rw [hcs, size_replicate, show 'a'.utf8Size = 1 by decide, Nat.mul_one]
  have hok : AllOk [text (.ofList cs)] := by
    refine ⟨⟨fun h => ?_, fun h => ?_⟩, fun _ => rfl, trivial⟩
    · rw [String.ofList_eq_empty_iff.1 h] at hsize
      cases hsize
    · rw [String.toList_ofList, hcs] at h
      exact absurd (List.eq_of_mem_replicate h) (by decide)
  refine ⟨_, hok, fun h => ?_⟩
  rw [read_renderAll hok] at h
  have hspan : (Piece.written 0 (.ofList cs)).wrapped.span.stop = (Piece.written 0 (.ofList cs)).span.stop := by
    have hnodes := (Document.mk.inj (Except.ok.inj h)).2
    exact congrArg (fun p : Piece => p.span.stop) (Node.text.inj (List.cons.inj hnodes).1)
  have hstop : (Piece.written 0 (.ofList cs)).span.stop = UInt32.size := by
    rw [Piece.written, String.toList_ofList, Nat.zero_add, hsize]
  have hzero : (Piece.written 0 (.ofList cs)).wrapped.span.stop = 0 := by
    rw [Piece.wrapped, Span.wrapped, hstop]
    rfl
  rw [hzero, hstop] at hspan
  exact absurd hspan (by decide)

end Relabel.Markup
