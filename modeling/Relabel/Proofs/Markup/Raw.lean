import Relabel.Proofs.Markup.Building
import Relabel.Proofs.Markup.Closing
import Relabel.Proofs.Markup.Printing

/-!
# Elements with raw content

The content of `script` and `style` is one text, and it is taken to end at the first `</` with the name of
the element behind it. What stands there is read as an end tag whose name may go on. Then it closes
nothing, and what follows is read as markup inside the element. So the content is what stands before the
end tag of the element exactly if it nowhere holds a `</` with the name (`raw_of_read`).
-/

namespace Relabel.Markup
open Text
variable {start : Nat} {c l : Char} {cs ds rest body : List Char} {tag id source : String}
  {ts post : List Token} {head : Head} {closing : Bool} {children : List Node} {document : Document}

/-- The name of the end tag that a text begins with, in lower case. -/
def endTagName? : List Char → Option String
  | '<' :: '/' :: l :: body =>
    if isAsciiLetter l then some (lowercase (.ofList (l :: body.takeWhile inName))) else none
  | _ => none

/-- What stands before the first end tag of a name; the whole text if there is none. -/
def contentOf (tag : String) : List Char → List Char
  | [] => []
  | c :: cs => if endTagName? (c :: cs) = some tag then [] else c :: contentOf tag cs

/-- Somewhere in a text stands `</` with a name behind it, in any case of its letters. -/
def Mentions (tag : String) (cs : List Char) : Prop :=
  ∃ word, word <:+: cs ∧ word.map lowerAscii = ('<' :: '/' :: tag.toList).map lowerAscii

/-! ### Raw content -/

theorem exists_of_endTagName? (h : endTagName? cs = some tag) :
    ∃ l body, cs = '<' :: '/' :: l :: body ∧ isAsciiLetter l = true ∧
      lowercase (.ofList (l :: body.takeWhile inName)) = tag := by
  unfold endTagName? at h
  split at h
  · next l body =>
    split at h
    · next hl => exact ⟨l, body, rfl, hl, Option.some.inj h⟩
    · cases h
  · cases h

theorem startsWithWord_of_endTagName? (h : endTagName? cs = some tag) :
    startsWithWord ('<' :: '/' :: tag.toList) cs = true := by
  obtain ⟨l, body, rfl, -, rfl⟩ := exists_of_endTagName? h
  refine Sketch.startsWithWord_iff.2 ⟨'<' :: '/' :: l :: body.takeWhile inName, body.dropWhile inName, ?_, ?_⟩
  · simp only [List.cons_append, List.takeWhile_append_dropWhile]
  · have hlower (cs : List Char) : (cs.map lowerAscii).map lowerAscii = cs.map lowerAscii :=
      map_lowerAscii_eq_self_iff.2 fun c hc => by
        obtain ⟨d, -, rfl⟩ := List.mem_map.1 hc
        exact lower_lowerAscii d
    rw [lowercase, String.toList_ofList, String.toList_ofList]
    simp only [List.map_cons, List.cons.injEq, true_and]
    exact ⟨(lowerAscii_of_lower (lower_lowerAscii l)).symm, (hlower _).symm⟩

theorem endTagName?_of_ne (h : c ≠ '<') (cs : List Char) : endTagName? (c :: cs) = none := by
  unfold endTagName?
  split
  · next heq => exact absurd (List.cons.inj heq).1 h
  · rfl

theorem contentOf_append (h : '<' ∉ ds) (cs : List Char) : contentOf tag (ds ++ cs) = ds ++ contentOf tag cs := by
  induction ds with
  | nil => rfl
  | cons d ds ih =>
    rw [List.mem_cons, not_or] at h
    rw [List.cons_append, contentOf, endTagName?_of_ne (Ne.symm h.1), ih h.2]
    rfl

theorem contentOf_prefix (tag : String) (cs : List Char) : contentOf tag cs <+: cs := by
  induction cs with
  | nil => exact List.prefix_rfl
  | cons c cs ih =>
    rw [contentOf]
    split
    · exact List.nil_prefix
    · exact (List.prefix_cons_inj c).2 ih

/-- The content does not end before the first `</` with the name behind it. -/
theorem contentOf_eq (tag : String) (cs : List Char) :
    contentOf tag cs = (rawRun tag.toList cs).1 ++ contentOf tag (rawRun tag.toList cs).2 := by
  induction cs with
  | nil => rfl
  | cons c cs ih =>
    rw [rawRun]
    split
    · rfl
    · next hnot =>
      have hname : endTagName? (c :: cs) ≠ some tag := fun h => hnot (startsWithWord_of_endTagName? h)
      rw [contentOf, if_neg hname, ih]
      rfl

theorem rawRun_rest (tag cs : List Char) :
    (rawRun tag cs).2 = [] ∨ startsWithWord ('<' :: '/' :: tag) (rawRun tag cs).2 = true := by
  induction cs with
  | nil => exact .inl rfl
  | cons c cs ih =>
    rw [rawRun]
    split
    · next h => exact .inr h
    · exact ih

theorem not_mentions_rawRun (tag : String) (cs : List Char) : ¬ Mentions tag (rawRun tag.toList cs).1 := by
  induction cs with
  | nil =>
    rintro ⟨word, hword, hletters⟩
    rw [List.infix_nil.1 hword] at hletters
    cases hletters
  | cons c cs ih =>
    rw [rawRun]
    split
    · rintro ⟨word, hword, hletters⟩
      rw [List.infix_nil.1 hword] at hletters
      cases hletters
    · next hnot =>
      rintro ⟨word, hword, hletters⟩
      rcases List.infix_cons_iff.1 hword with ⟨more, hmore⟩ | hword
      · refine hnot (Sketch.startsWithWord_iff.2 ⟨word, more ++ (rawRun tag.toList cs).2, ?_, hletters⟩)
        rw [← List.append_assoc, hmore, List.cons_append, rawRun_append]
      · exact ih ⟨word, hword, hletters⟩

/-- Raw content goes up to the first end tag of its element exactly if the name of the element does not
stand behind a `</` before that. -/
theorem rawRun_eq_contentOf_iff (htag : '<' ∉ tag.toList) :
    (rawRun tag.toList cs).1 = contentOf tag cs ↔ ¬ Mentions tag (contentOf tag cs) := by
  constructor
  · intro h
    rw [← h]
    exact not_mentions_rawRun tag cs
  · intro h
    rw [contentOf_eq] at h ⊢
    rcases rawRun_rest tag.toList cs with hrest | hrest
    · rw [hrest, contentOf, List.append_nil]
    · obtain ⟨word, more, hword, hletters⟩ := Sketch.startsWithWord_iff.1 hrest
      rw [hword] at h ⊢
      cases word with
      | nil => cases hletters
      | cons c word =>
        rw [List.cons_append, contentOf] at h ⊢
        split at h
        · next hname => rw [if_pos hname, List.append_nil]
        · -- the word goes on without a `<`, so all of it belongs to the content
          have hno : '<' ∉ word := by
            intro hmem
            have hmap := List.mem_map_of_mem (f := lowerAscii) hmem
            rw [(List.cons.inj hletters).2] at hmap
            obtain ⟨d, hd, hlower⟩ := List.mem_map.1 hmap
            obtain rfl : d = '<' := eq_of_lowerAscii_eq (by decide) (hlower.trans (by decide))
            rcases List.mem_cons.1 hd with hd | hd
            · revert hd; decide
            · exact htag hd
          refine absurd ⟨c :: word, ?_, hletters⟩ h
          rw [contentOf_append hno]
          exact ⟨(rawRun tag.toList cs).1, contentOf tag more, by simp⟩

/-! ### Tokens -/

/-- The text token of raw content, if there is any. -/
def rawTokens (start : Nat) (raw : List Char) : List Token :=
  if raw.isEmpty then [] else [.text (Piece.located start raw)]

/-- What the tokens around a token were read from. -/
theorem exists_of_mem_tokens (h : tokens start cs = .ok ts) (ht : .startTag head closing ∈ ts) :
    ∃ before c more taken rest pre post, cs = before ++ c :: more ∧ c :: more = taken ++ rest ∧
      tokenAt (start + size before) c more = .ok (.startTag head closing, rest) ∧
      ts = pre ++ .startTag head closing ::
        (rawTokens (start + size (before ++ taken)) (rawAfter (.startTag head closing) rest).1 ++ post) ∧
      tokens (start + size (before ++ taken) + size (rawAfter (.startTag head closing) rest).1)
        (rawAfter (.startTag head closing) rest).2 = .ok post := by
  fun_induction tokens start cs generalizing ts with
  | case1 =>
    obtain rfl := Except.ok.inj h
    cases ht
  | case2 => cases h
  | case3 start c cs =>
    rename_i t rest htoken _ _ raw stop ih
    obtain ⟨taken, htaken, -, -⟩ := on_tokenAt htoken
    have hstop : stop = start + size taken := by
      simp only [stop, htaken, size_append]
      omega
    simp only [bind, Except.bind] at h
    split at h
    · cases h
    · next more hmore =>
      have hts : ts = t :: (rawTokens stop raw ++ more) := by
        unfold rawTokens
        split at h <;> simp_all [pure, Except.pure]
      subst hts
      rcases List.mem_cons.1 ht with rfl | ht
      · exact ⟨[], c, cs, taken, rest, [], more, rfl, htaken, htoken, hstop ▸ rfl, hstop ▸ hmore⟩
      · have hmem : .startTag head closing ∈ more := by
          rcases List.mem_append.1 ht with ht | ht
          · unfold rawTokens at ht
            split at ht
            · cases ht
            · cases List.mem_singleton.1 ht
          · exact ht
        obtain ⟨before, d, more', taken', rest', pre, post, hcs, htaken', htoken', rfl, hpost⟩ := ih hmore hmem
        have hoffset (ds : List Char) : stop + size raw + size ds = start + size (taken ++ raw ++ ds) := by
          rw [hstop, size_append, size_append]
          omega
        refine ⟨taken ++ raw ++ before, d, more', taken', rest', t :: (rawTokens stop raw ++ pre), post, ?_,
          htaken', ?_, ?_, ?_⟩
        · rw [htaken, List.append_assoc, List.append_assoc, ← hcs, rawAfter_append]
        · rwa [← hoffset]
        · rw [List.append_assoc (taken ++ raw), ← hoffset]
          simp
        · rwa [List.append_assoc (taken ++ raw), ← hoffset]

/-! ### Reading -/

/-- The text of a piece of the document as the content of an element. -/
def textNodes (start : Nat) (cs : List Char) : List Node :=
  if cs.isEmpty then [] else [.text (Piece.located start cs)]

/-- What stands behind the start tag of an element before its end tag, or up to the end of the text if it
has none. -/
def Head.content (cs : List Char) (head : Head) : List Char :=
  contentOf head.tag (after head.startTag.stop cs)

/-- What is read as raw content behind the start tag of an element, and what follows. -/
def Head.rawRun (cs : List Char) (head : Head) : List Char × List Char :=
  Markup.rawRun head.tag.toList (after head.startTag.stop cs)

theorem of_mem_rawTags (h : tag ∈ rawTags) :
    voidTags.contains tag = false ∧ '<' ∉ tag.toList ∧ ∃ letters, tag.toList = 's' :: letters := by
  simp only [rawTags, List.mem_cons, List.not_mem_nil, or_false] at h
  rcases h with rfl | rfl
  · exact ⟨by decide, by decide, "cript".toList, by decide⟩
  · exact ⟨by decide, by decide, "tyle".toList, by decide⟩

/-- Where raw content ends, an end tag begins, if anything does. -/
theorem rawRun_rest_of_mem (h : tag ∈ rawTags) (hne : (rawRun tag.toList cs).2 ≠ []) :
    ∃ l body, (rawRun tag.toList cs).2 = '<' :: '/' :: l :: body ∧ isAsciiLetter l = true := by
  obtain ⟨-, -, letters, hletters⟩ := of_mem_rawTags h
  obtain ⟨word, more, hword, hlower⟩ := Sketch.startsWithWord_iff.1 ((rawRun_rest tag.toList cs).resolve_left hne)
  rw [hletters] at hlower
  rcases word with _ | ⟨c, _ | ⟨d, _ | ⟨l, word⟩⟩⟩
  · simp at hlower
  · simp at hlower
  · simp at hlower
  · simp only [List.map_cons, List.cons.injEq] at hlower
    obtain ⟨hc, hd, hl, -⟩ := hlower
    obtain rfl : c = '<' := eq_of_lowerAscii_eq (by decide) (hc.trans (by decide))
    obtain rfl : d = '/' := eq_of_lowerAscii_eq (by decide) (hd.trans (by decide))
    refine ⟨l, word ++ more, hword, ?_⟩
    by_contra hnot
    rw [Bool.not_eq_true] at hnot
    have hsame : l = lowerAscii l := by
      refine (lowerAscii_of_lower fun hupper => ?_).symm
      simp [isAsciiLetter, hupper] at hnot
    rw [hsame, hl] at hnot
    revert hnot
    decide

/-- A text of the tree is a token. -/
theorem mem_of_text_mem {piece : Piece} {size : Nat} (h : .text piece ∈ preorderOf (ofTokens size ts)) :
    .text piece ∈ ts := by
  obtain ⟨t, ht, m, hm, hshallow⟩ := exists_token_of_mem h
  cases t with
  | comment span =>
    obtain rfl := List.mem_singleton.1 hm
    cases hshallow
  | text piece' =>
    obtain rfl := List.mem_singleton.1 hm
    obtain rfl := Node.text.inj hshallow
    exact ht
  | endTag tag span => cases hm
  | startTag head' closing =>
    obtain rfl := List.mem_singleton.1 hm
    cases hshallow

/-- An element of the tree has a start tag among the tokens. -/
theorem exists_startTag_of_mem {size : Nat} (h : .element head children ∈ preorderOf (ofTokens size ts)) :
    ∃ head' closing, .startTag head' closing ∈ ts ∧
      { head' with span := head'.startTag } = { head with span := head.startTag } := by
  obtain ⟨t, ht, m, hm, hshallow⟩ := exists_token_of_mem h
  cases t with
  | comment span =>
    obtain rfl := List.mem_singleton.1 hm
    cases hshallow
  | text piece =>
    obtain rfl := List.mem_singleton.1 hm
    cases hshallow
  | endTag tag span => cases hm
  | startTag head' closing =>
    obtain rfl := List.mem_singleton.1 hm
    exact ⟨head', closing, ht, (Node.element.inj hshallow).1⟩

theorem rawAfter_of_mem_rawTags (h : head.tag ∈ rawTags) (cs : List Char) :
    rawAfter (.startTag head false) cs = Markup.rawRun head.tag.toList cs := by
  have hvoid : voidTags.contains head.tag = false := (of_mem_rawTags h).1
  have hcontains : rawTags.contains head.tag = true := List.contains_iff_mem.2 h
  rw [rawAfter, opens]
  simp only [hvoid, hcontains, Bool.or_self, Bool.not_false, Bool.and_self, if_true]

/-- An element with raw content was read by its start tag and the text behind it. -/
theorem exists_of_read (hfit : size source.toList < UInt32.size) (h : read id source = .ok document)
    (he : .element head children ∈ preorderOf document.children) (hraw : head.tag ∈ rawTags)
    (hopen : ¬ head.ClosesItself source.toList) :
    ∃ ts pre post, Cuts 0 source.toList ts ∧ document.children = ofTokens (size source.toList) ts ∧
      ts = pre ++ .startTag { head with span := head.startTag } false ::
        (rawTokens head.startTag.stop (head.rawRun source.toList).1 ++ post) ∧
      tokens (head.startTag.stop + size (head.rawRun source.toList).1) (head.rawRun source.toList).2 = .ok post ∧
      head.startTag.stop + size (after head.startTag.stop source.toList) = size source.toList := by
  unfold read at h
  split at h
  case h_2 => cases h
  next ts hts =>
  obtain rfl := Except.ok.inj h
  obtain ⟨head', closing, ht, hsame⟩ := exists_startTag_of_mem he
  obtain ⟨before, c, more, taken, rest, pre, post, hcs, htaken, htoken, hts', hpost⟩ :=
    exists_of_mem_tokens hts ht
  have hsource : source.toList = before ++ taken ++ rest := by rw [hcs, htaken, List.append_assoc]
  have hsize : size source.toList = size (before ++ taken) + size rest := by rw [hsource, size_append]
  obtain ⟨taken', htaken', -, hon⟩ := on_tokenAt htoken
  obtain rfl : taken = taken' := List.append_cancel_right (htaken.symm.trans htaken')
  obtain ⟨hstart, hspan, -⟩ := hon
  rw [Nat.zero_add] at htoken hstart hts' hpost
  rw [Span.ofOffsets_of_lt (Nat.le_add_right ..) (by rw [← size_append]; omega), ← size_append] at hstart
  have hhead : head' = { head with span := head.startTag } := by
    obtain ⟨tag', attributes', span', startTag'⟩ := head'
    obtain rfl : span' = startTag' := hspan
    exact hsame
  subst hhead
  have hstop : head.startTag.stop = size (before ++ taken) := congrArg Span.stop hstart
  have hafter : after head.startTag.stop source.toList = rest := by rw [hsource, hstop, after_append]
  obtain ⟨taken', htaken', -, hclosing⟩ := closing_tokenAt htoken (by
    simp only [htaken, size_append] at hsize ⊢
    omega)
  obtain rfl : taken = taken' := List.append_cancel_right (htaken.symm.trans htaken')
  rw [← size_append, ← hstop] at hclosing
  have hnot : closing = false := by
    rw [Bool.eq_false_iff]
    intro hclose
    obtain ⟨hends, hstops⟩ := hclosing.1 hclose
    refine hopen ⟨taken, slice?_eq_some_iff.2 ⟨before, rest, hsource, ?_, ?_⟩, hends, hstops⟩
    · exact (congrArg Span.start hstart).symm
    · rw [hstop, size_append]
  subst hnot
  have hrun : rawAfter (.startTag { head with span := head.startTag } false) rest = head.rawRun source.toList := by
    rw [Head.rawRun, hafter]
    exact rawAfter_of_mem_rawTags hraw rest
  rw [hrun, ← hstop] at hts' hpost
  exact ⟨ts, pre, post, cuts_of_tokens hts, rfl, hts', hpost, by rw [hafter, hsize, hstop]⟩

/-- Behind the start tag of an element with raw content, the builder holds that element with its raw
content. -/
theorem foldl_rawTokens (hvoid : voidTags.contains head.tag = false) (b : Builder) (start : Nat) (raw : List Char) :
    (Token.startTag head false :: rawTokens start raw).foldl Builder.step b =
      { b with opened := ⟨head, textNodes start raw⟩ :: b.opened } := by
  have hopens : opens head false = true := by rw [opens, hvoid]; rfl
  rw [List.foldl_cons, Builder.step, if_pos hopens, rawTokens, textNodes]
  split <;> rfl

theorem reverse_textNodes (start : Nat) (cs : List Char) : (textNodes start cs).reverse = textNodes start cs := by
  rw [textNodes]
  split <;> rfl

/-- What begins as an end tag is read as one. -/
theorem tokens_of_endTag (hl : isAsciiLetter l = true) (h : tokens start ('<' :: '/' :: l :: body) = .ok ts) :
    ∃ span more, ts = .endTag (lowercase (.ofList (l :: body.takeWhile inName))) span :: more ∧
      (start + size ('<' :: '/' :: l :: body) < UInt32.size → span.start = start ∧ start < span.stop) := by
  rw [tokens] at h
  split at h
  · cases h
  · next t rest htoken =>
    obtain ⟨taken, htaken, hne, hon⟩ := on_tokenAt htoken
    have hpos : 0 < size taken := Nat.pos_of_ne_zero (mt size_eq_zero.1 hne)
    have hspan := hon.span_eq
    have htag : ∃ span, t = .endTag (lowercase (.ofList (l :: body.takeWhile inName))) span := by
      unfold tokenAt at htoken
      rw [if_pos rfl] at htoken
      simp only [hl, if_true] at htoken
      unfold endTagAt tokenUpTo at htoken
      split at htoken
      · exact ⟨_, (Prod.mk.inj (Except.ok.inj htoken)).1.symm⟩
      · cases htoken
    obtain ⟨span, rfl⟩ := htag
    obtain rfl : span = _ := hspan
    simp only [bind, Except.bind] at h
    split at h
    · cases h
    · next more hmore =>
      refine ⟨_, more, by simpa [rawAfter, pure, Except.pure] using h.symm, fun hfit => ?_⟩
      rw [htaken, size_append] at hfit
      rw [Span.ofOffsets_of_lt (Nat.le_add_right ..) (by omega)]
      exact ⟨rfl, Nat.lt_add_of_pos_right hpos⟩

/-- The element of a start tag has the raw content first among its children. -/
theorem exists_mem_ofTokens (size start : Nat) (hvoid : voidTags.contains head.tag = false)
    (pre post : List Token) (raw : List Char) :
    ∃ stop children, textNodes start raw <+: children ∧
      .element { head with span := ⟨head.span.start, stop⟩ } children ∈
        preorderOf (ofTokens size (pre ++ .startTag head false :: (rawTokens start raw ++ post))) := by
  rw [ofTokens, List.foldl_append, ← List.cons_append, List.foldl_append, foldl_rawTokens hvoid]
  refine Builder.exists_of_begins ((Builder.kept_begins head (textNodes start raw)).foldl (.inl ?_) post) _
  refine ⟨_, List.mem_cons_self .., rfl, ?_⟩
  rw [reverse_textNodes]

/-- If its end tag comes next, or nothing, the raw content is all that it has. -/
theorem exists_mem_ofTokens_of_closed (size start : Nat) (hvoid : voidTags.contains head.tag = false)
    (hpost : post = [] ∨ ∃ span more, post = .endTag head.tag span :: more)
    (pre : List Token) (raw : List Char) :
    ∃ stop, .element { head with span := ⟨head.span.start, stop⟩ } (textNodes start raw) ∈
      preorderOf (ofTokens size (pre ++ .startTag head false :: (rawTokens start raw ++ post))) := by
  have hhas (b : Builder) (stop : Nat) :
      (Builder.close { b with opened := ⟨head, textNodes start raw⟩ :: b.opened } stop).Has
        (.element { head with span := ⟨head.span.start, stop⟩ } (textNodes start raw)) := by
    simp only [Builder.close, reverse_textNodes]
    exact Builder.has_add.2 (.inl (Node.mem_preorder_self _))
  rw [ofTokens, List.foldl_append, ← List.cons_append, List.foldl_append, foldl_rawTokens hvoid]
  rcases hpost with rfl | ⟨span, more, rfl⟩
  · refine ⟨size % UInt32.size, ?_⟩
    rw [List.foldl_nil, ← Builder.finish_close]
    exact Builder.mem_finish_of_has (hhas _ _) _
  · refine ⟨span.stop, Builder.mem_finish_of_has ((Builder.kept_has _).foldl ?_ more) _⟩
    have hinner (b : Builder) : List.findIdx? (fun o : Opened => o.head.tag == head.tag)
        (⟨head, textNodes start raw⟩ :: b.opened) = some 0 := by
      rw [List.findIdx?_cons, if_pos (beq_self_eq_true _)]
    rw [Builder.step, Builder.endTag, hinner]
    exact hhas _ span.stop

theorem mem_textNodes (h : cs ≠ []) (start : Nat) :
    .text (Piece.located start cs) ∈ preorderOf (textNodes start cs) := by
  rw [textNodes, if_neg (mt List.isEmpty_iff.1 h)]
  exact mem_preorderOf.2 ⟨_, List.mem_singleton_self _, Node.mem_preorder_self _⟩

/-- A text that goes on behind raw content would stand on the end tag that begins there. -/
theorem text_notMem_of_endTag {source raw more : List Char} {before : List Token}
    (hfit : size source < UInt32.size) (hcuts : Cuts 0 source ts) (hts : ts = before ++ post)
    (hl : isAsciiLetter l = true) (hsize : start + size (raw ++ '<' :: '/' :: l :: body) = size source)
    (hpost : tokens (start + size raw) ('<' :: '/' :: l :: body) = .ok post) (hmore : more ≠ [])
    (hbegin : more <+: '<' :: '/' :: l :: body) : .text (Piece.located start (raw ++ more)) ∉ ts := by
  intro htext
  have hle : size more ≤ size ('<' :: '/' :: l :: body) := by
    obtain ⟨rest, hrest⟩ := hbegin
    rw [← hrest, size_append]
    exact Nat.le_add_right ..
  rw [size_append] at hsize
  obtain ⟨span, rest, rfl, hspan⟩ := tokens_of_endTag hl hpost
  obtain ⟨hstart, hstop⟩ := hspan (by omega)
  have hendTag : .endTag (lowercase (.ofList (l :: body.takeWhile inName))) span ∈ ts := by
    rw [hts]
    exact List.mem_append_right _ (List.mem_cons_self ..)
  have hsize : size (raw ++ more) = size raw + size more := size_append ..
  have hpos : 0 < size more := Nat.pos_of_ne_zero (mt size_eq_zero.1 hmore)
  rcases hcuts.apart (by omega) htext hendTag with heq | hapart | hapart
  · cases heq
  · simp only [Token.span, Piece.located_of_lt (show start + size (raw ++ more) < UInt32.size by omega)] at hapart
    omega
  · simp only [Token.span, Piece.located_of_lt (show start + size (raw ++ more) < UInt32.size by omega)] at hapart
    omega

/-- Where nothing more is content, the end tag of the element comes next, or nothing. -/
theorem closed_of_contentOf_eq_nil (h : contentOf tag cs = []) (hpost : tokens start cs = .ok post) :
    post = [] ∨ ∃ span more, post = .endTag tag span :: more := by
  cases cs with
  | nil =>
    rw [tokens] at hpost
    exact .inl (Except.ok.inj hpost).symm
  | cons c cs =>
    rw [contentOf, ite_eq_left_iff] at h
    have hend : endTagName? (c :: cs) = some tag := by_contra fun hnot => List.cons_ne_nil _ _ (h hnot)
    obtain ⟨l, body, hbody, hl, rfl⟩ := exists_of_endTagName? hend
    rw [hbody] at hpost
    obtain ⟨span, more, hpost, -⟩ := tokens_of_endTag hl hpost
    exact .inr ⟨span, more, hpost⟩

/-- The children of an element with raw content begin with its raw content. They are the text before its
end tag and nothing else exactly if that text does not mention the end tag. -/
theorem raw_of_read (hfit : size source.toList < UInt32.size) (h : read id source = .ok document)
    (he : .element head children ∈ preorderOf document.children) (hraw : head.tag ∈ rawTags)
    (hopen : ¬ head.ClosesItself source.toList) :
    textNodes head.startTag.stop (head.rawRun source.toList).1 <+: children ∧
      (children = textNodes head.startTag.stop (head.content source.toList) ↔
        ¬ Mentions head.tag (head.content source.toList)) := by
  obtain ⟨hvoid, hname, -⟩ := of_mem_rawTags hraw
  obtain ⟨ts, pre, post, hcuts, htree, hts, hpost, hsize⟩ := exists_of_read hfit h he hraw hopen
  have haccounts := accounts_of_cuts hfit hcuts htree (stands_of_read h)
  have hcontent : head.content source.toList =
      (head.rawRun source.toList).1 ++ contentOf head.tag (head.rawRun source.toList).2 := contentOf_eq ..
  have hexact : (head.rawRun source.toList).1 = head.content source.toList ↔
      ¬ Mentions head.tag (head.content source.toList) := rawRun_eq_contentOf_iff hname
  have hvoid : voidTags.contains { head with span := head.startTag }.tag = false := hvoid
  rw [← hexact]
  refine ⟨?_, fun hchildren => ?_, fun heq => ?_⟩
  · obtain ⟨stop, children', hprefix, hmem⟩ := exists_mem_ofTokens (size source.toList) head.startTag.stop hvoid
      pre post (head.rawRun source.toList).1
    rw [← hts, ← htree] at hmem
    rwa [(haccounts.eq_of_startTag he hmem rfl).2]
  · by_contra hne
    have hmore : contentOf head.tag (head.rawRun source.toList).2 ≠ [] := fun hnil =>
      hne (by rw [hcontent, hnil, List.append_nil])
    have hrest : (head.rawRun source.toList).2 ≠ [] := fun hnil => hmore (by rw [hnil, contentOf])
    obtain ⟨l, body, hbody, hl⟩ : ∃ l body, (head.rawRun source.toList).2 = '<' :: '/' :: l :: body ∧
        isAsciiLetter l = true := rawRun_rest_of_mem hraw hrest
    have hts : ts = (pre ++ .startTag { head with span := head.startTag } false ::
        rawTokens head.startTag.stop (head.rawRun source.toList).1) ++ post := by
      rw [hts, List.append_assoc, List.cons_append]
    have hbehind : (head.rawRun source.toList).1 ++ (head.rawRun source.toList).2 = _ := rawRun_append ..
    rw [← hbehind, hbody] at hsize
    have hprefix := hbody ▸ contentOf_prefix head.tag (head.rawRun source.toList).2
    rw [hbody] at hpost
    refine text_notMem_of_endTag hfit hcuts hts hl hsize hpost (hbody ▸ hmore) hprefix ?_
    rw [← hbody, ← hcontent]
    have hnonempty : head.content source.toList ≠ [] := by
      rw [hcontent]
      exact List.append_ne_nil_of_right_ne_nil _ hmore
    have htext := mem_textNodes hnonempty head.startTag.stop
    rw [← hchildren] at htext
    exact mem_of_text_mem (htree ▸ mem_preorderOf_of_child he htext)
  · have hnil : contentOf head.tag (head.rawRun source.toList).2 = [] :=
      List.append_right_eq_self.1 (hcontent.symm.trans heq.symm)
    obtain ⟨stop, hmem⟩ := exists_mem_ofTokens_of_closed (size source.toList) head.startTag.stop hvoid
      (closed_of_contentOf_eq_nil hnil hpost) pre (head.rawRun source.toList).1
    rw [← hts, ← htree] at hmem
    rw [(haccounts.eq_of_startTag he hmem rfl).2, heq]

/-- A script with the name of its end tag in another one, and markup behind that. -/
def scriptSource : String :=
  "<script></scriptx><b></b></script>"

theorem tokens_script : tokens 0 scriptSource.toList =
    .ok [.startTag ⟨"script", [], ⟨0, 8⟩, ⟨0, 8⟩⟩ false, .endTag "scriptx" ⟨8, 18⟩,
      .startTag ⟨"b", [], ⟨18, 21⟩, ⟨18, 21⟩⟩ false, .endTag "b" ⟨21, 25⟩, .endTag "script" ⟨25, 34⟩] := by
  have htokens : (tokens 0 scriptSource.toList).toOption = some
      [.startTag ⟨"script", [], ⟨0, 8⟩, ⟨0, 8⟩⟩ false, .endTag "scriptx" ⟨8, 18⟩,
        .startTag ⟨"b", [], ⟨18, 21⟩, ⟨18, 21⟩⟩ false, .endTag "b" ⟨21, 25⟩, .endTag "script" ⟨25, 34⟩] := by
    decide +kernel
  cases h : tokens 0 scriptSource.toList with
  | error e => rw [h] at htokens; cases htokens
  | ok ts =>
    rw [h] at htokens
    exact congrArg Except.ok (Option.some.inj htokens)

/-- The element behind the other end tag becomes a child of the script. -/
theorem raw_of_read_script :
    ∃ document head children, size scriptSource.toList < UInt32.size ∧ read "t" scriptSource = .ok document ∧
      .element head children ∈ preorderOf document.children ∧ head.tag ∈ rawTags ∧
      ¬ head.ClosesItself scriptSource.toList ∧ children ≠ [] ∧
      textNodes head.startTag.stop (head.rawRun scriptSource.toList).1 <+: children ∧
      (children = textNodes head.startTag.stop (head.content scriptSource.toList) ↔
        ¬ Mentions head.tag (head.content scriptSource.toList)) := by
  have hread := read_eq_ok tokens_script "t"
  have hmem : .element ⟨"script", [], ⟨0, 34⟩, ⟨0, 8⟩⟩ [.element ⟨"b", [], ⟨18, 25⟩, ⟨18, 21⟩⟩ []] ∈
      preorderOf (ofTokens (size scriptSource.toList) [.startTag ⟨"script", [], ⟨0, 8⟩, ⟨0, 8⟩⟩ false,
        .endTag "scriptx" ⟨8, 18⟩, .startTag ⟨"b", [], ⟨18, 21⟩, ⟨18, 21⟩⟩ false, .endTag "b" ⟨21, 25⟩,
        .endTag "script" ⟨25, 34⟩]) :=
    List.mem_cons_self ..
  have hopen : ¬ Head.ClosesItself scriptSource.toList ⟨"script", [], ⟨0, 34⟩, ⟨0, 8⟩⟩ := by
    rintro ⟨text, htext, hends, -⟩
    have hslice : slice? scriptSource.toList ⟨0, 8⟩ = some "<script>".toList := by decide +kernel
    obtain rfl := Option.some.inj (htext.symm.trans hslice)
    revert hends
    decide
  have hfit : size scriptSource.toList < UInt32.size := by decide +kernel
  exact ⟨_, _, _, hfit, hread, hmem, by simp [rawTags], hopen, by simp,
    raw_of_read hfit hread hmem (by simp [rawTags]) hopen⟩

end Relabel.Markup
