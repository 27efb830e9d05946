import Relabel.Proofs.Splice.Order

/-!
# Splicing against its reference

The reference result of a splice, `woven`, is the text read from its start to its end: a gap that no
edit touches, the text of the first edit, the next gap, and so on. `Mapped.splice` works the other
way round, on a text that it changes in place. The invariant that joins the two (`applyTo_woven`): up
to the start `p` of the last edit carried out the text is still the old one, and from `p` on it is
woven already.
-/

namespace Relabel.Edit
open Text
variable {content : List Char} {e : Edit} {edits es done : List Edit} {p : Nat}

/-- The text from the byte `start` on, with the texts of some edits, in ascending order, in place of
their ranges. -/
def woven (content : List Char) (start : Nat) : List Edit → List Char
  | [] => after start content
  | e :: es => between start e.span.start content ++ e.text.toList ++ woven content e.span.stop es

/-- The edits of a list, each once, from the start of the text to its end. -/
structure Arranged (edits es : List Edit) : Prop where
  mem : ∀ e, e ∈ es ↔ e ∈ edits
  ascending : es.Pairwise Earlier

/-- Every edit fits the text that it is applied to, which the edits before it have changed. -/
def FitInTurn : List Edit → List Char → Prop
  | [], _ => True
  | e :: es, content => Fits content e ∧ FitInTurn es (e.applyTo content)

/-- The text after some edits, one after another. -/
def applied (es : List Edit) (content : List Char) : List Char :=
  es.foldl (fun content e => e.applyTo content) content

@[simp] theorem applied_nil (content : List Char) : applied [] content = content := rfl

@[simp] theorem applied_cons (e : Edit) (es : List Edit) (content : List Char) :
    applied (e :: es) content = applied es (e.applyTo content) := rfl

theorem fst_applyAll (es : List Edit) (content : List Char) (m : Option Mappings) :
    (Mapped.applyAll es (content, m)).1 = applied es content := by
  induction es generalizing content m with
  | nil => rfl
  | cons e es ih => rw [Mapped.applyAll, ih, applied_cons]

/-- A gap may be cut anywhere before the next edit. -/
theorem between_append_woven {m : Nat} (hm : Boundary content m) (hp : Boundary content p)
    (hmp : m ≤ p) (hdone : ∀ e ∈ done.head?, Fits content e ∧ p ≤ e.span.start) :
    between m p content ++ woven content p done = woven content m done := by
  cases done with
  | nil => exact between_append_after hm hp hmp
  | cons e done =>
    obtain ⟨he, hpe⟩ := hdone e rfl
    rw [woven, woven, ← List.append_assoc, ← List.append_assoc,
      between_append_between hm hp he.start hmp hpe]

/-- One edit more is woven in. -/
theorem applyTo_woven (he : Fits content e) (hp : Boundary content p) (hep : e.span.stop ≤ p)
    (hdone : ∀ e ∈ done.head?, Fits content e ∧ p ≤ e.span.start) :
    e.applyTo (before p content ++ woven content p done) =
      before e.span.start content ++ woven content e.span.start (e :: done) := by
  have hs : e.span.start ≤ p := Nat.le_trans he.le hep
  have hbefore : before e.span.start (before p content ++ woven content p done) =
      before e.span.start content := by
    rw [before_append_of_boundary (hp.of_before he.start hs), before_before he.start hp hs]
  have hafter : after e.span.stop (before p content ++ woven content p done) =
      woven content e.span.stop done := by
    rw [after_append_of_boundary (hp.of_before he.stop hep), after_before he.stop hp hep,
      between_append_woven he.stop hp hep hdone]
  rw [applyTo, hbefore, hafter, woven, between_self, List.nil_append, List.append_assoc]

/-- The run of the edits `es` on a text from which `done` have been woven in already. -/
theorem applied_woven (hes : Descending es) (hfit : ∀ e ∈ es, Fits content e)
    (hp : Boundary content p) (hle : ∀ e ∈ es, e.span.stop ≤ p)
    (hdone : ∀ e ∈ done.head?, Fits content e ∧ p ≤ e.span.start) :
    FitInTurn es (before p content ++ woven content p done) ∧
      applied es (before p content ++ woven content p done) =
        woven content 0 (es.reverse ++ done) := by
  induction es generalizing p done with
  | nil =>
    refine ⟨trivial, ?_⟩
    have := between_append_woven (.zero content) hp (Nat.zero_le p) hdone
    rwa [between, Nat.sub_zero, after_zero] at this
  | cons e es ih =>
    obtain ⟨habove, hes⟩ := List.pairwise_cons.1 hes
    have he := hfit e (List.mem_cons_self ..)
    have hep := hle e (List.mem_cons_self ..)
    have hstep := applyTo_woven he hp hep hdone
    have hnext : ∀ x ∈ (e :: done).head?, Fits content x ∧ e.span.start ≤ x.span.start := by
      intro x hx
      obtain rfl := Option.some.inj hx
      exact ⟨he, Nat.le_refl _⟩
    obtain ⟨hturn, hrun⟩ := ih hes (fun x hx => hfit x (List.mem_cons_of_mem e hx)) he.start
      (fun x hx => (habove x hx).clear) hnext
    refine ⟨⟨⟨he.le, ?_, ?_⟩, ?_⟩, ?_⟩
    · exact (hp.of_before he.start (Nat.le_trans he.le hep)).append_right _
    · exact (hp.of_before he.stop hep).append_right _
    · rw [hstep]
      exact hturn
    · rw [applied_cons, hstep, hrun, List.reverse_cons, List.append_assoc, List.singleton_append]

/-- Descending edits that fit a text weave their texts into it. -/
theorem applied_eq_woven (hes : Descending es) (hfit : ∀ e ∈ es, Fits content e) :
    FitInTurn es content ∧ applied es content = woven content 0 es.reverse := by
  have hnil : ∀ e ∈ ([] : List Edit).head?, Fits content e ∧ size content ≤ e.span.start :=
    fun e he => nomatch he
  have h := applied_woven hes hfit (.size content) (fun e he => (hfit e he).stop.le) hnil
  rwa [woven, before_append_after, List.append_nil] at h

/-! ### Checking -/

theorem check_of_not_fits (document : String) (h : ∃ e ∈ edits, ¬ Fits content e) :
    ∃ e ∈ edits, ¬ Fits content e ∧
      check document content edits = .error (.invalidRange document e.span (size content)) := by
  obtain ⟨e, he, hf⟩ := h
  have hsome : ((ordered edits).find? (! fits content ·)).isSome := by
    rw [List.find?_isSome]
    exact ⟨e, mem_ordered.2 he, not_fits_iff.2 hf⟩
  obtain ⟨x, hx⟩ := Option.isSome_iff_exists.1 hsome
  have hbad := List.find?_some hx
  exact ⟨x, mem_ordered.1 (List.mem_of_find?_eq_some hx), not_fits_iff.1 hbad, by rw [check, hx]⟩

theorem check_of_fits {document : String} (h : ∀ e ∈ edits, Fits content e) :
    check document content edits =
      match clash? (ordered edits) with
      | some (a, b) => .error (.overlap document b.span a.span.start)
      | none => .ok (ordered edits) := by
  have hnone : (ordered edits).find? (! fits content ·) = none := by
    rw [List.find?_eq_none]
    exact fun e he hf => not_fits_iff.1 hf (h e (mem_ordered.1 he))
  cases hc : clash? (ordered edits) <;> simp only [check, hnone, hc]

theorem check_of_clear {document : String} (hfit : ∀ e ∈ edits, Fits content e)
    (hclear : ∀ a ∈ edits, ∀ b ∈ edits, a ≠ b → ¬ Collide a b) :
    check document content edits = .ok (ordered edits) := by
  rw [check_of_fits hfit, (clash?_eq_none_iff fun e he => (hfit e he).le).2 hclear]

/-- What a list of edits looks like that passes the check. -/
theorem check_eq_ok {document : String} (h : check document content edits = .ok es) :
    es = ordered edits ∧ (∀ e ∈ edits, Fits content e) ∧ Descending es := by
  have hfit : ∀ e ∈ edits, Fits content e := by
    by_contra hf
    push Not at hf
    obtain ⟨e, -, -, he⟩ := check_of_not_fits document hf
    rw [he] at h
    exact nomatch h
  rw [check_of_fits hfit] at h
  cases hc : clash? (ordered edits) with
  | some p =>
    rw [hc] at h
    exact nomatch h
  | none =>
    rw [hc] at h
    obtain rfl := Except.ok.inj h
    exact ⟨rfl, hfit, descending_of_clash?_eq_none (fun e he => (hfit e he).le) hc⟩

theorem arranged_ordered (h : Descending (ordered edits)) : Arranged edits (ordered edits).reverse :=
  ⟨fun e => by rw [List.mem_reverse, mem_ordered], List.pairwise_reverse.2 (h.imp Above.earlier)⟩

end Relabel.Edit

namespace Relabel.Mapped
open Edit

/-- Edits that pass the check are carried out, if the mappings of the text can be read. -/
theorem exists_splice {document : String} {text : Mapped} {edits es : List Edit}
    (hmap : ∀ map ∈ text.map, ∃ mappings, Mappings.decode map.mappings = .ok mappings)
    (hcheck : check document text.content.toList edits = .ok es) :
    ∃ result, splice document text edits = .ok result ∧
      result.content = .ofList (applied es text.content.toList) := by
  rw [splice, hcheck]
  cases hm : text.map with
  | none => exact ⟨_, rfl, by rw [fst_applyAll]⟩
  | some map =>
    obtain ⟨mappings, hmappings⟩ := hmap map hm
    simp only [bind, Except.bind, hmappings]
    exact ⟨_, rfl, by rw [fst_applyAll]⟩

theorem splice_text_eq (document content : String) (edits : List Edit) :
    splice document ⟨content, none⟩ edits =
      (check document content.toList edits).map fun es =>
        ⟨.ofList (applied es content.toList), none⟩ := by
  simp only [splice]
  cases check document content.toList edits with
  | error e => rfl
  | ok es => simp only [Except.map, ← fst_applyAll es content.toList none]; rfl

/-- Splicing a text without a source map against its reference. An edit whose range is none of the
text is refused; then edits of which two collide are; all others weave their texts into the text in
ascending order, each edit once. Every change on the way is made at boundaries of the text that it
is made in. -/
theorem splice_eq_reference (document content : String) (edits : List Edit) :
    ((∃ e ∈ edits, ¬ Fits content.toList e) →
      ∃ e ∈ edits, ¬ Fits content.toList e ∧
        splice document ⟨content, none⟩ edits =
          .error (.invalidRange document e.span (Text.size content.toList))) ∧
    ((∀ e ∈ edits, Fits content.toList e) →
      ((∃ span next, splice document ⟨content, none⟩ edits = .error (.overlap document span next)) ↔
        ∃ a ∈ edits, ∃ b ∈ edits, a ≠ b ∧ Collide a b) ∧
      ((¬ ∃ a ∈ edits, ∃ b ∈ edits, a ≠ b ∧ Collide a b) →
        ∃ es, Arranged edits es ∧
          splice document ⟨content, none⟩ edits = .ok ⟨.ofList (woven content.toList 0 es), none⟩)) ∧
    ∀ es, check document content.toList edits = .ok es → FitInTurn es content.toList := by
  rw [splice_text_eq]
  refine ⟨fun h => ?_, fun hfit => ?_, fun es hes => ?_⟩
  · obtain ⟨e, he, hf, hc⟩ := check_of_not_fits document h
    exact ⟨e, he, hf, by rw [hc]; rfl⟩
  · have hle : ∀ e ∈ edits, e.span.start ≤ e.span.stop := fun e he => (hfit e he).le
    rw [check_of_fits hfit]
    cases hc : clash? (ordered edits) with
    | some p =>
      obtain ⟨a, b⟩ := p
      obtain ⟨ha, hb, hne, hcol⟩ := collide_of_clash? hle hc
      have hcollision : ∃ a ∈ edits, ∃ b ∈ edits, a ≠ b ∧ Collide a b := ⟨a, ha, b, hb, hne, hcol⟩
      exact ⟨⟨fun _ => hcollision, fun _ => ⟨b.span, a.span.start, rfl⟩⟩,
        fun hno => absurd hcollision hno⟩
    | none =>
      have hclear := (clash?_eq_none_iff hle).1 hc
      have hd := descending_of_clash?_eq_none hle hc
      refine ⟨⟨fun ⟨span, next, h⟩ => (nomatch h), fun ⟨a, ha, b, hb, hne, hcol⟩ => ?_⟩, fun _ => ?_⟩
      · exact absurd hcol (hclear a ha b hb hne)
      · refine ⟨_, arranged_ordered hd, ?_⟩
        rw [← (applied_eq_woven hd fun e he => hfit e (mem_ordered.1 he)).2]
        rfl
  · obtain ⟨rfl, hfit, hd⟩ := check_eq_ok hes
    exact (applied_eq_woven hd fun e he => hfit e (mem_ordered.1 he)).1

end Relabel.Mapped
