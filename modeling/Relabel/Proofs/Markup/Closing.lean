import Relabel.Proofs.Markup.Token

/-!
# Start tags that close themselves

A start tag is read as one that closes itself exactly if it ends in `/>` and no attribute value goes up to
the `>`, as the value without quotes in `<a b=c/>` does (`closing_tokenAt`). Where values end is told by
their spans, so the text has to end below the last word.
-/

namespace Relabel.Markup
open Text
variable {start offset : Nat} {c l : Char} {cs rest taken first body : List Char} {tag name : String}
  {a : Attribute} {as : List Attribute} {v : Piece} {head : Head} {closing : Bool}

/-- A start tag closes itself: it ends in `/>`, and the slash belongs to no value. -/
def Head.ClosesItself (cs : List Char) (head : Head) : Prop :=
  ∃ text, slice? cs head.startTag = some text ∧ ['/', '>'] <:+ text ∧
    ∀ a ∈ head.attributes, a.extent.stop + 2 ≤ head.startTag.stop

theorem suffix_append_iff (hne : taken ≠ []) :
    ['/', '>'] <:+ first ++ taken ↔
      ['/', '>'] <:+ taken ∨ taken = ['>'] ∧ ['/'] <:+ first := by
  constructor
  · intro h
    rcases taken with _ | ⟨c, _ | ⟨d, taken⟩⟩
    · exact absurd rfl hne
    · obtain ⟨before, hbefore⟩ := h
      have hsplit : before ++ ['/'] ++ ['>'] = first ++ [c] := by simpa using hbefore
      obtain ⟨hfirst, hc⟩ := List.append_inj' hsplit rfl
      exact .inr ⟨hc.symm, before, hfirst⟩
    · exact .inl (List.suffix_of_suffix_length_le h (List.suffix_append ..) (by simp))
  · rintro (h | ⟨rfl, before, rfl⟩)
    · exact h.trans (List.suffix_append ..)
    · exact ⟨before, by simp⟩

theorem ne_slash_of_inName (h : inName c = true) : c ≠ '/' := by
  rintro rfl
  revert h
  decide

theorem ne_slash_of_mem_takeWhile (h : c ∈ cs.takeWhile inName) : c ≠ '/' :=
  ne_slash_of_inName (List.all_eq_true.1 (List.all_takeWhile (p := inName) (l := cs)) c h)

/-- A value goes to the end of the text that is read for it, unless that ends in a quote. -/
theorem stop_value (h : value name start cs = .ok (v, rest)) (hcs : cs = taken ++ rest)
    (hfit : start + size taken < UInt32.size) :
    v.span.stop = start + size taken ∨ ∃ q, q ≠ '/' ∧ [q] <:+ taken := by
  have hquoted {q : Char} {cs : List Char} (h : quotedValue name q start cs = .ok (v, rest))
      (hcs : q :: cs = taken ++ rest) : [q] <:+ taken := by
    unfold quotedValue at h
    split at h
    · next inner tail hc =>
      obtain ⟨-, rfl⟩ := Prod.mk.inj (Except.ok.inj h)
      refine ⟨q :: inner, List.append_cancel_right (Eq.trans ?_ hcs)⟩
      rw [eq_append_of_cut? hc]
      rfl
    · cases h
  unfold value at h
  split at h
  · exact .inr ⟨_, by decide, hquoted h hcs⟩
  · exact .inr ⟨_, by decide, hquoted h hcs⟩
  · obtain ⟨rfl, rfl⟩ := Prod.mk.inj (Except.ok.inj h)
    have htaken : taken = cs.takeWhile inBareValue :=
      List.append_cancel_right (hcs.symm.trans List.takeWhile_append_dropWhile.symm)
    rw [htaken] at hfit ⊢
    rw [Piece.located_of_lt hfit]
    exact .inl rfl

/-- An attribute that ends in a slash has a value without quotes. -/
theorem stop_attributeAt (h : attributeAt start c cs = .ok (a, rest)) (hc : c ≠ '/')
    (hcs : c :: cs = taken ++ rest) (hfit : start + size taken < UInt32.size) (hslash : ['/'] <:+ taken) :
    a.extent.stop = start + size taken := by
  have hname : c :: cs = c :: cs.takeWhile inName ++ cs.dropWhile inName := by
    rw [List.cons_append, List.takeWhile_append_dropWhile]
  simp only [attributeAt] at h
  split at h
  · next more hmore =>
    simp only [bind, Except.bind] at h
    split at h
    · cases h
    · next vr hv =>
      obtain ⟨v, r⟩ := vr
      obtain ⟨rfl, rfl⟩ := Prod.mk.inj (Except.ok.inj h)
      obtain ⟨given, hgiven, -⟩ := stands_value hv
      let gap := (cs.dropWhile inName).takeWhile isAsciiBlank ++ '=' :: more.takeWhile isAsciiBlank
      have hgap : cs.dropWhile inName = gap ++ more.dropWhile isAsciiBlank := by
        rw [List.append_assoc, List.cons_append, List.takeWhile_append_dropWhile, ← hmore,
          List.takeWhile_append_dropWhile]
      have htaken : taken = c :: cs.takeWhile inName ++ gap ++ given := by
        refine List.append_cancel_right (hcs.symm.trans ?_)
        rw [hname, hgap, hgiven]
        simp only [List.append_assoc]
      have hvalue : start + (size (c :: cs) - size (more.dropWhile isAsciiBlank)) =
          start + size (c :: cs.takeWhile inName ++ gap) := by
        have h1 := congrArg size hname
        have h2 := congrArg size hgap
        simp only [size_append] at h1 h2 ⊢
        omega
      rw [hvalue] at hv
      rw [htaken, size_append, ← Nat.add_assoc] at hfit
      rcases stop_value hv hgiven hfit with hstop | ⟨q, hq, hquote⟩
      · show v.span.stop = start + size taken
        rw [hstop, htaken, size_append _ given, Nat.add_assoc]
      · have htail : [q] <:+ taken := hquote.trans (htaken ▸ List.suffix_append ..)
        have hlast := (List.suffix_of_suffix_length_le htail hslash (Nat.le_refl 1)).eq_of_length rfl
        exact absurd (List.cons.inj hlast).1 hq
  · obtain ⟨rfl, rfl⟩ := Prod.mk.inj (Except.ok.inj h)
    rw [List.append_cancel_right (hcs.symm.trans hname)] at hslash
    refine absurd (hslash.subset (List.mem_singleton_self _)) fun hmem => ?_
    rcases List.mem_cons.1 hmem with rfl | hmem
    · exact hc rfl
    · exact ne_slash_of_mem_takeWhile hmem rfl

/-- The attributes of a start tag that closes itself end before its last two characters; in any other
start tag what is read for them does not end in `/>`, or a value goes up to its end. -/
theorem closing_attributes (h : attributes tag start offset cs = .ok (as, closing, rest))
    (hfit : offset + size cs < UInt32.size) : ∃ taken, cs = taken ++ rest ∧ taken ≠ [] ∧ (closing = true ↔
      ['/', '>'] <:+ taken ∧ ∀ a ∈ as, a.extent.stop + 2 ≤ offset + size taken) := by
  fun_induction attributes tag start offset cs generalizing as closing rest with
  | case1 => cases h
  | case2 offset rest' =>
    simp only [Except.ok.injEq, Prod.mk.injEq] at h
    obtain ⟨rfl, rfl, rfl⟩ := h
    refine ⟨['>'], rfl, by simp, iff_of_false (by simp) fun hends => ?_⟩
    exact absurd hends.1.length_le (by simp)
  | case3 offset rest' =>
    simp only [Except.ok.injEq, Prod.mk.injEq] at h
    obtain ⟨rfl, rfl, rfl⟩ := h
    exact ⟨['/', '>'], rfl, by simp, iff_of_true rfl ⟨List.suffix_rfl, by simp⟩⟩
  | case4 offset c rest' hend hself _ ih =>
    obtain ⟨taken, rfl, hne, hiff⟩ := ih h (by rwa [Nat.add_assoc])
    refine ⟨c :: taken, rfl, by simp, ?_⟩
    have hends : ['/', '>'] <:+ c :: taken ↔ ['/', '>'] <:+ taken := by
      rw [List.suffix_cons_iff]
      refine ⟨fun h => h.resolve_left fun heq => ?_, .inr⟩
      obtain ⟨rfl, rfl⟩ := List.cons.inj heq
      exact hself _ rfl rfl
    rw [hiff, hends, size_cons, Nat.add_assoc]
  | case5 => cases h
  | case6 offset c rest' =>
    rename_i hname a more ha _ next ih
    simp only [bind, Except.bind] at h
    split at h
    · cases h
    · next v hv =>
      obtain ⟨as', closing', r⟩ := v
      simp only [pure, Except.pure, Except.ok.injEq, Prod.mk.injEq] at h
      obtain ⟨rfl, rfl, rfl⟩ := h
      obtain ⟨first, hfirst, hona⟩ := on_attributeAt ha
      have hnext : next = offset + size first := by
        simp only [next, hfirst, size_append]
        omega
      rw [hfirst, size_append] at hfit
      obtain ⟨taken, rfl, hne, hiff⟩ := ih hv (by omega)
      have hc : c ≠ '/' := by
        rintro rfl
        simp at hname
      refine ⟨first ++ taken, by rw [hfirst, List.append_assoc], by simp [hne], ?_⟩
      rw [hiff, hnext, size_append, List.forall_mem_cons, suffix_append_iff hne, Nat.add_assoc]
      constructor
      · rintro ⟨hends, hstops⟩
        have hstop := (hona.extent_within (by omega)).2
        have hsize : 2 ≤ size taken := by
          obtain ⟨before, rfl⟩ := hends
          have hmark : size ['/', '>'] = 2 := by decide
          rw [size_append, hmark]
          exact Nat.le_add_left ..
        exact ⟨.inl hends, by omega, hstops⟩
      · rintro ⟨hends | ⟨rfl, hslash⟩, hstop, hstops⟩
        · exact ⟨hends, hstops⟩
        · -- the attribute goes up to the end of the start tag
          have hmark : size ['>'] = 1 := by decide
          rw [stop_attributeAt ha hc hfirst (by omega) hslash, hmark] at hstop
          omega

theorem closing_startTagAt (hl : isAsciiLetter l = true)
    (h : startTagAt start l body = .ok (.startTag head closing, rest))
    (hfit : start + size ('<' :: l :: body) < UInt32.size) :
    ∃ taken, '<' :: l :: body = taken ++ rest ∧ head.startTag.stop = start + size taken ∧
      (closing = true ↔ ['/', '>'] <:+ taken ∧
        ∀ a ∈ head.attributes, a.extent.stop + 2 ≤ start + size taken) := by
  have hopen : '<'.utf8Size = 1 := by decide
  simp only [startTagAt, bind, Except.bind] at h
  split at h
  · cases h
  · next v hv =>
    obtain ⟨as, closing', r⟩ := v
    have hsplit : size (l :: body) = size (l :: body.takeWhile inName) + size (body.dropWhile inName) := by
      rw [← size_append, List.cons_append, List.takeWhile_append_dropWhile]
    rw [size_cons '<', hopen, hsplit] at hfit
    obtain ⟨taken, htaken, hne, hiff⟩ := closing_attributes hv (by omega)
    simp only [pure, Except.pure, Except.ok.injEq, Prod.mk.injEq, Token.startTag.injEq] at h
    obtain ⟨⟨rfl, rfl⟩, rfl⟩ := h
    obtain ⟨opening, hopening⟩ : ∃ opening, opening = '<' :: l :: body.takeWhile inName := ⟨_, rfl⟩
    have hwhole : '<' :: l :: body = opening ++ taken ++ r := by
      rw [hopening, List.append_assoc, ← htaken, List.cons_append, List.cons_append,
        List.takeWhile_append_dropWhile]
    have hsize : start + 1 + size (l :: body.takeWhile inName) = start + size opening := by
      rw [hopening, size_cons '<', hopen, Nat.add_assoc]
    have hno : ¬ ['/'] <:+ opening := by
      intro hslash
      have hmem := hslash.subset (List.mem_singleton_self _)
      rw [hopening, List.mem_cons, List.mem_cons] at hmem
      rcases hmem with hmem | hmem | hmem
      · revert hmem; decide
      · rw [← hmem] at hl; revert hl; decide
      · exact ne_slash_of_mem_takeWhile hmem rfl
    refine ⟨opening ++ taken, hwhole, ?_, ?_⟩
    · have hsizes := congrArg size hwhole
      rw [size_append _ r, size_cons, hopen] at hsizes
      have hpos : 0 < size (opening ++ taken) := by
        rw [hopening, List.cons_append, size_cons, hopen]
        omega
      have hstop : start + 1 + (size (l :: body) - size r) = start + size (opening ++ taken) := by omega
      show (start + 1 + (size (l :: body) - size r)) % UInt32.size = _
      rw [hstop, Nat.mod_eq_of_lt (by omega)]
    · rw [hiff, hsize, suffix_append_iff hne, size_append, Nat.add_assoc]
      have hnone : ¬ (taken = ['>'] ∧ ['/'] <:+ opening) := fun h => hno h.2
      rw [or_iff_left hnone]

/-- A start tag that is read closes itself if it is read as one that does. -/
theorem closing_tokenAt (h : tokenAt start c cs = .ok (.startTag head closing, rest))
    (hfit : start + size (c :: cs) < UInt32.size) : ∃ taken, c :: cs = taken ++ rest ∧ head.startTag.stop = start + size taken ∧
      (closing = true ↔ ['/', '>'] <:+ taken ∧
        ∀ a ∈ head.attributes, a.extent.stop + 2 ≤ start + size taken) := by
  have hcut {word body : List Char} {problem : MarkupProblem} {total : Nat} (make : Span → Token)
      (hmake : ∀ span, make span ≠ .startTag head closing)
      (h : tokenUpTo word problem make start total body = .ok (.startTag head closing, rest)) : False := by
    unfold tokenUpTo at h
    split at h
    · exact hmake _ (Prod.mk.inj (Except.ok.inj h)).1
    · cases h
  unfold tokenAt at h
  split at h
  · next hc =>
    subst hc
    split at h
    · exact (hcut .comment (fun _ => Token.noConfusion) h).elim
    · exact (hcut .comment (fun _ => Token.noConfusion) h).elim
    · exact (hcut .comment (fun _ => Token.noConfusion) h).elim
    · split at h
      · exact (hcut (.endTag _) (fun _ => Token.noConfusion) h).elim
      · cases h
    · split at h
      · next hl => exact closing_startTagAt hl h hfit
      · cases h
    · cases h
  · cases h

end Relabel.Markup
