import Relabel.Proofs.Splice.Reference
import Relabel.Proofs.Text.Standing

/-!
# Edits that change nothing

An edit that puts the text of its range back leaves the text as it is. So edits like this, on the same
range or on ranges that lie apart, can be carried out and leave the text unchanged
(`exists_splice_unchanged`), with or without a source map.
-/

namespace Relabel
open Text
open Edit
variable {content : List Char} {document : String} {e : Edit} {edits es : List Edit} {text : Mapped}

namespace Edit

/-- An edit that puts back what its range has. -/
def Restores (content : List Char) (e : Edit) : Prop :=
  slice? content e.span = some e.text.toList

theorem Restores.fits (h : Restores content e) : Fits content e := by
  obtain ⟨a, c, hcontent, hstart, hstop⟩ := slice?_eq_some_iff.1 h
  refine ⟨by omega, ⟨a, e.text.toList ++ c, by rw [hcontent, List.append_assoc], hstart⟩, ?_⟩
  exact ⟨a ++ e.text.toList, c, hcontent, by rw [size_append, hstop]⟩

theorem Restores.applyTo (h : Restores content e) : e.applyTo content = content := by
  obtain ⟨a, c, rfl, hstart, hstop⟩ := slice?_eq_some_iff.1 h
  rw [Edit.applyTo, ← hstart, ← hstop, ← size_append, after_append, List.append_assoc a, before_append,
    List.append_assoc]

theorem applied_of_restores (h : ∀ e ∈ es, Restores content e) : applied es content = content := by
  induction es with
  | nil => rfl
  | cons e es ih =>
    rw [applied_cons, (h e (List.mem_cons_self ..)).applyTo]
    exact ih fun x hx => h x (List.mem_cons_of_mem e hx)

/-- Edits on one range that put its text back are one edit. -/
theorem Restores.eq {a b : Edit} (ha : Restores content a) (hb : Restores content b)
    (h : a.span = b.span) : a = b := by
  obtain ⟨span, text⟩ := a
  obtain ⟨span', text'⟩ := b
  obtain rfl : span = span' := h
  have htext : text = text' := String.toList_inj.1 (Option.some.inj (ha.symm.trans hb))
  rw [htext]

theorem check_of_restores (h : ∀ e ∈ edits, Restores content e)
    (hapart : ∀ a ∈ edits, ∀ b ∈ edits, a.span = b.span ∨ a.span.Apart b.span) :
    check document content edits = .ok (ordered edits) := by
  refine check_of_clear (fun e he => (h e he).fits) fun a ha b hb hne hcollide => ?_
  have hle : ∀ e ∈ edits, e.span.start ≤ e.span.stop := fun e he => (h e he).fits.le
  rcases hapart a ha b hb with heq | h'
  · exact hne ((h a ha).eq (h b hb) heq)
  · unfold Span.Apart at h'
    rcases hcollide with heq | ⟨i, h1, h2⟩ | ⟨h1, h2, h3⟩ | ⟨h1, h2, h3⟩
    · exact hne ((h a ha).eq (h b hb) heq)
    · omega
    · omega
    · omega

end Edit

/-- Edits that put back what their ranges have leave a text unchanged. -/
theorem Mapped.exists_splice_unchanged
    (hmap : ∀ map ∈ text.map, ∃ mappings, Mappings.decode map.mappings = .ok mappings)
    (h : ∀ e ∈ edits, Restores text.content.toList e)
    (hapart : ∀ a ∈ edits, ∀ b ∈ edits, a.span = b.span ∨ a.span.Apart b.span) :
    ∃ result, splice document text edits = .ok result ∧ result.content = text.content := by
  obtain ⟨result, hresult, hcontent⟩ := exists_splice hmap (check_of_restores h hapart)
  refine ⟨result, hresult, ?_⟩
  rw [hcontent, applied_of_restores fun e he => h e (mem_ordered.1 he), String.ofList_toList]

end Relabel
