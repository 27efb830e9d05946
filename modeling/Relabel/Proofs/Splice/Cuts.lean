import Relabel.Proofs.Splice.Reference

/-!
# Cutting

In a text parts to keep and parts to cut take turns. Edits that cut these out leave the others, joined
(`exists_splice_cuts`), whatever the order in which they are carried out (`Cut.woven_of_arranged`).
-/

namespace Relabel
open Text

/-- A part of a text to keep, and the part behind it to cut. -/
structure Cut where
  kept : List Char
  gone : List Char

namespace Cut

/-- The text of some cuts before anything is cut. -/
def whole (cs : List Cut) : List Char :=
  cs.flatMap fun c => c.kept ++ c.gone

/-- The edits that cut, for cuts that begin at a byte. -/
def edits (start : Nat) : List Cut → List Edit
  | [] => []
  | c :: cs =>
    ⟨⟨start + size c.kept, start + size c.kept + size c.gone⟩, ""⟩ :: edits (start + size c.kept + size c.gone) cs

variable {content before tail : List Char} {start : Nat} {cs : List Cut} {e : Edit}

theorem whole_cons (c : Cut) (cs : List Cut) : whole (c :: cs) = c.kept ++ c.gone ++ whole cs := rfl

theorem edits_append (start : Nat) (cs ds : List Cut) :
    edits start (cs ++ ds) = edits start cs ++ edits (start + size (whole cs)) ds := by
  induction cs generalizing start with
  | nil => simp [edits, whole]
  | cons c cs ih =>
    rw [List.cons_append, edits, edits, ih, whole_cons, size_append, size_append]
    simp [Nat.add_assoc]

/-- Further back all edits are further back. -/
theorem edits_add (start n : Nat) (cs : List Cut) :
    (edits (start + n) cs).map Edit.span =
      ((edits start cs).map Edit.span).map fun s => ⟨s.start + n, s.stop + n⟩ := by
  induction cs generalizing start with
  | nil => rfl
  | cons c cs ih =>
    have hstart := ih (start + size c.kept + size c.gone)
    simp only [edits, List.map_cons, Nat.add_right_comm _ _ n] at hstart ⊢
    rw [hstart]

theorem text_of_mem_edits (he : e ∈ edits start cs) : e.text = "" := by
  induction cs generalizing start with
  | nil => cases he
  | cons c cs ih =>
    rcases List.mem_cons.1 he with rfl | he
    · rfl
    · exact ih he

theorem map_span_edits (start : Nat) (cs : List Cut) :
    ((edits start cs).map Edit.span).map (⟨·, ""⟩) = edits start cs := by
  rw [List.map_map]
  refine (List.map_congr_left fun e he => ?_).trans (List.map_id _)
  rw [Function.comp_apply, ← text_of_mem_edits he]
  rfl

theorem fits_of_mem_edits (hcontent : content = before ++ whole cs ++ tail) (he : e ∈ edits (size before) cs) :
    Edit.Fits content e := by
  induction cs generalizing before with
  | nil => cases he
  | cons c cs ih =>
    rcases List.mem_cons.1 he with rfl | he
    · refine ⟨by simp, ⟨before ++ c.kept, c.gone ++ whole cs ++ tail, ?_, by simp⟩,
        ⟨before ++ c.kept ++ c.gone, whole cs ++ tail, ?_, by simp [Nat.add_assoc]⟩⟩
      · simp [hcontent, whole_cons]
      · simp [hcontent, whole_cons]
    · refine @ih (before ++ c.kept ++ c.gone) (by simp [hcontent, whole_cons]) ?_
      simpa [Nat.add_assoc] using he

theorem le_of_mem_edits (he : e ∈ edits start cs) : start ≤ e.span.start ∧ e.span.start ≤ e.span.stop := by
  induction cs generalizing start with
  | nil => cases he
  | cons c cs ih =>
    rcases List.mem_cons.1 he with rfl | he
    · exact ⟨Nat.le_add_right .., Nat.le_add_right ..⟩
    · obtain ⟨hstart, hle⟩ := ih he
      exact ⟨by omega, hle⟩

theorem pairwise_edits (start : Nat) (cs : List Cut) :
    (edits start cs).Pairwise fun a b => a.span.stop ≤ b.span.start := by
  induction cs generalizing start with
  | nil => exact .nil
  | cons c cs ih => exact List.pairwise_cons.2 ⟨fun b hb => (le_of_mem_edits hb).1, ih _⟩

end Cut

namespace Edit
variable {e : Edit} {edits es : List Edit}

/-- An edit with no other one before its end comes first. Another one that is the same counts once. -/
theorem Arranged.exists_eq_cons (h : Arranged (e :: edits) es) (hle : e.span.start ≤ e.span.stop)
    (hbehind : ∀ x ∈ edits, e.span.stop ≤ x.span.start ∧ x.span.start ≤ x.span.stop) :
    ∃ es', es = e :: es' ∧ (e ∉ edits → Arranged edits es') ∧ (e ∈ edits → Arranged edits es) := by
  have hmem : e ∈ es := (h.mem e).2 (List.mem_cons_self ..)
  obtain ⟨x, xs, rfl⟩ := List.exists_cons_of_ne_nil (List.ne_nil_of_mem hmem)
  obtain ⟨hearlier, hascending⟩ := List.pairwise_cons.1 h.ascending
  obtain rfl : x = e := by
    by_contra hne
    have hx := hbehind x ((List.mem_cons.1 ((h.mem x).1 (List.mem_cons_self ..))).resolve_left hne)
    have hearlier := hearlier e ((List.mem_cons.1 hmem).resolve_left fun h => hne h.symm)
    unfold Earlier at hearlier
    omega
  have hnot : x ∉ xs := fun hx => by
    have hself := hearlier x hx
    unfold Earlier at hself
    omega
  refine ⟨xs, rfl, fun hx => ⟨fun y => ?_, hascending⟩, fun hx => ⟨fun y => ?_, h.ascending⟩⟩
  · have hy := h.mem y
    rw [List.mem_cons, List.mem_cons] at hy
    exact ⟨fun hys => (hy.1 (.inr hys)).resolve_left fun hyx => hnot (hyx ▸ hys),
      fun hys => (hy.2 (.inr hys)).resolve_left fun hyx => hx (hyx ▸ hys)⟩
  · rw [h.mem y, List.mem_cons]
    exact ⟨fun hy => hy.elim (fun hyx => hyx ▸ hx) id, .inr⟩

end Edit

namespace Cut
variable {content before tail : List Char} {cs : List Cut} {es : List Edit}

/-- Weaving the edits into the text leaves what is kept. -/
theorem woven_of_arranged (hcontent : content = before ++ whole cs ++ tail)
    (h : Edit.Arranged (edits (size before) cs) es) :
    Edit.woven content (size before) es = cs.flatMap Cut.kept ++ tail := by
  induction cs generalizing before es with
  | nil =>
    have hes : es = [] := List.eq_nil_iff_forall_not_mem.2 fun e he => absurd ((h.mem e).1 he) List.not_mem_nil
    rw [hes, hcontent, whole, List.flatMap_nil, List.append_nil]
    exact after_append before tail
  | cons c cs ih =>
    have hkept : between (size before) (size before + size c.kept) content = c.kept := by
      rw [show content = before ++ c.kept ++ (c.gone ++ whole cs ++ tail) by simp [hcontent, whole_cons]]
      exact between_append₃ ..
    have hrest {xs : List Edit} := @ih (before ++ c.kept ++ c.gone) xs (by simp [hcontent, whole_cons])
    rw [size_append, size_append] at hrest
    obtain ⟨xs, rfl, hother, hsame⟩ := h.exists_eq_cons (Nat.le_add_right ..) fun x hx => le_of_mem_edits hx
    have hwoven : Edit.woven content (size before + size c.kept + size c.gone) xs = cs.flatMap Cut.kept ++ tail := by
      rcases Classical.em (_ ∈ edits (size before + size c.kept + size c.gone) cs) with hmem | hmem
      · -- nothing stands between the edit and its like
        have hwoven := hrest (hsame hmem)
        have hgone : size c.gone = 0 := by
          have hle : size before + size c.kept + size c.gone ≤ size before + size c.kept := (le_of_mem_edits hmem).1
          omega
        rw [Edit.woven, hgone, Nat.add_zero, between_self] at hwoven
        rwa [hgone, Nat.add_zero]
      · exact hrest (hother hmem)
    rw [Edit.woven, hkept, hwoven]
    simp

end Cut

/-- A splice weaves its edits into the text. -/
theorem Mapped.woven_of_splice {document : String} {text result : Mapped} {edits : List Edit}
    (h : splice document text edits = .ok result) :
    (∀ e ∈ edits, Edit.Fits text.content.toList e) ∧
      ∃ es, Edit.Arranged edits es ∧ result.content = .ofList (Edit.woven text.content.toList 0 es) := by
  cases hcheck : Edit.check document text.content.toList edits with
  | error e => simp only [splice, hcheck, bind, Except.bind, reduceCtorEq] at h
  | ok es =>
    obtain ⟨rfl, hfit, hdescending⟩ := Edit.check_eq_ok hcheck
    have hmap : ∀ map ∈ text.map, ∃ mappings, Mappings.decode map.mappings = .ok mappings := by
      intro map hmap
      cases hdecode : Mappings.decode map.mappings with
      | ok mappings => exact ⟨mappings, rfl⟩
      | error problem =>
        rw [Option.mem_def] at hmap
        simp only [splice, hcheck, hmap, hdecode, bind, Except.bind, throw, throwThe, MonadExceptOf.throw,
          reduceCtorEq] at h
    obtain ⟨result', hresult, hcontent⟩ := exists_splice hmap hcheck
    obtain rfl := Except.ok.inj (h.symm.trans hresult)
    refine ⟨hfit, _, Edit.arranged_ordered hdescending, ?_⟩
    rw [hcontent, (Edit.applied_eq_woven hdescending fun e he => hfit e (Edit.mem_ordered.1 he)).2]

/-- Cutting leaves what is to be kept, and what stands behind the last cut. -/
theorem Mapped.content_of_splice_cuts {document : String} {text result : Mapped} {cs : List Cut} {tail : List Char}
    (h : splice document text (Cut.edits 0 cs) = .ok result) (htext : text.content.toList = Cut.whole cs ++ tail) :
    result.content.toList = cs.flatMap Cut.kept ++ tail := by
  obtain ⟨-, es, hes, hcontent⟩ := woven_of_splice h
  rw [hcontent, String.toList_ofList]
  exact @Cut.woven_of_arranged _ [] _ _ _ htext hes

/-- What is cut can always be cut. -/
theorem Mapped.exists_splice_cuts {document : String} {text : Mapped} {cs : List Cut} {tail : List Char}
    (hmap : ∀ map ∈ text.map, ∃ mappings, Mappings.decode map.mappings = .ok mappings)
    (htext : text.content.toList = Cut.whole cs ++ tail) :
    ∃ result, splice document text (Cut.edits 0 cs) = .ok result := by
  have hfit : ∀ e ∈ Cut.edits 0 cs, Edit.Fits text.content.toList e := fun e he =>
    @Cut.fits_of_mem_edits _ [] _ _ _ htext he
  have hclear : (Cut.edits 0 cs).Pairwise fun a b => a ≠ b → ¬ Edit.Collide a b := by
    refine (Cut.pairwise_edits 0 cs).imp_of_mem fun {a b} ha hb hab hne hcollide => ?_
    have hlea := (hfit a ha).le
    have hleb := (hfit b hb).le
    rcases hcollide with heq | ⟨i, h1, h2⟩ | ⟨h1, h2, h3⟩ | ⟨h1, h2, h3⟩
    · have htexts := (Cut.text_of_mem_edits ha).trans (Cut.text_of_mem_edits hb).symm
      cases a
      cases b
      exact hne (Edit.mk.injEq .. ▸ ⟨heq, htexts⟩)
    all_goals omega
  have hsymm : Std.Symm fun a b : Edit => a ≠ b → ¬ Edit.Collide a b :=
    ⟨fun _ _ h hne h' => h hne.symm h'.symm⟩
  have hcheck : Edit.check document text.content.toList (Cut.edits 0 cs) = .ok (Edit.ordered (Cut.edits 0 cs)) :=
    Edit.check_of_clear hfit fun a ha b hb hne => hclear.forall ha hb hne hne
  obtain ⟨result, hresult, -⟩ := exists_splice hmap hcheck
  exact ⟨result, hresult⟩

end Relabel
