import Relabel.Binding.Scan
import Relabel.Proofs.Text.Cut
import Relabel.Proofs.Text.Trim

/-!
# Where bindings begin

A text opens a binding (`Opens`) if it begins with an opener whose closer occurs behind the longest run of
blanks, an optional `!` and blanks that follows the opener. The scan takes the binding that the leftmost such
place opens (`next?_of_delimits`, `next?_eq_none_iff`): where an opener has no closer, the text one character
further opens nothing either (`not_opens_second`), so that both its characters can be passed over.
-/

namespace Relabel
open Text

/-- The delimiter that begins a binding. -/
def BindingKind.opener : BindingKind → List Char
  | .oneWay => ['[', '[']
  | .twoWay => ['\x7b', '\x7b']

namespace Binding
variable {kind kind' : BindingKind} {cs run run' inner inner' back back' rest rest' body xs ys : List Char}
  {b b' : Binding} {offset start : Nat}

/-- Blanks, an optional `!` and blanks. -/
def IsRun (cs : List Char) : Prop :=
  ∃ us mark vs, cs = us ++ mark ++ vs ∧ (mark = [] ∨ mark = ['!']) ∧ ∀ c ∈ us ++ vs, isBlank c = true

/-- `run` is the longest run at the start of `run ++ rest`. -/
structure LongestRun (run rest : List Char) : Prop where
  isRun : IsRun run
  longest : ∀ u v, run ++ rest = u ++ v → IsRun u → u.length ≤ run.length

/-- A text begins with an opener whose closer occurs behind the run that follows it. -/
def Opens (cs : List Char) : Prop :=
  ∃ kind run rest, cs = BindingKind.opener kind ++ run ++ rest ∧ LongestRun run rest ∧ kind.closer <:+: rest

/-- A text begins with an opener, the run that follows it, and an inner text that ends at the first closer. -/
structure Delimits (kind : BindingKind) (run inner back cs : List Char) : Prop where
  eq : cs = kind.opener ++ run ++ (inner ++ kind.closer ++ back)
  run : LongestRun run (inner ++ kind.closer ++ back)
  first : ∀ u v, inner ++ kind.closer ++ back = u ++ kind.closer ++ v → inner.length ≤ u.length

/-- The parts of a binding whose opener is at the byte `offset`, by the run and the inner text behind it. -/
structure Describes (offset : Nat) (run inner : List Char) (b : Binding) : Prop where
  negated : b.negated = true ↔ '!' ∈ run
  outer : b.outer = .ofOffsets offset (offset + size (b.kind.opener ++ run ++ inner ++ b.kind.closer))
  plain : ¬ [':', ':'] <:+: inner →
    b.expression = .located (offset + size (b.kind.opener ++ run)) (trim inner) ∧ b.event = none
  event : ∀ xs ys, inner = xs ++ [':', ':'] ++ ys →
    (∀ u v, inner = u ++ [':', ':'] ++ v → xs.length ≤ u.length) →
    b.expression = .located (offset + size (b.kind.opener ++ run)) (trim xs) ∧
      b.event = some (.trimmedAt (offset + size (b.kind.opener ++ run ++ xs ++ [':', ':'])) ys)

theorem size_opener (kind : BindingKind) : size kind.opener = 2 := by cases kind <;> rfl

theorem size_closer (kind : BindingKind) : size kind.closer = 2 := by cases kind <;> rfl

/-! ### Runs -/

namespace IsRun

theorem blank_or_mark {c : Char} (h : IsRun cs) (hc : c ∈ cs) : isBlank c = true ∨ c = '!' := by
  obtain ⟨us, mark, vs, rfl, hmark, hblanks⟩ := h
  rcases List.mem_append.1 hc with hc | hc
  · rcases List.mem_append.1 hc with hc | hc
    · exact .inl (hblanks c (List.mem_append_left vs hc))
    · rcases hmark with rfl | rfl
      · cases hc
      · exact .inr (List.mem_singleton.1 hc)
  · exact .inl (hblanks c (List.mem_append_right us hc))

/-- Not more than one character of a run is no blank. -/
theorem countP_le (h : IsRun cs) : cs.countP (fun c => !isBlank c) ≤ 1 := by
  obtain ⟨us, mark, vs, rfl, hmark, hblanks⟩ := h
  have hnone {ws : List Char} (hws : ∀ c ∈ ws, isBlank c = true) : ws.countP (fun c => !isBlank c) = 0 :=
    List.countP_eq_zero.2 fun c hc => by simp [hws c hc]
  have hus := hnone fun c hc => hblanks c (List.mem_append_left vs hc)
  have hvs := hnone fun c hc => hblanks c (List.mem_append_right us hc)
  have hlength : mark.length ≤ 1 := by rcases hmark with rfl | rfl <;> decide
  have hmark := List.countP_le_length (p := fun c => !isBlank c) (l := mark)
  simp only [List.countP_append]
  omega

theorem concat {c : Char} (h : IsRun cs) (hc : isBlank c = true) : IsRun (cs ++ [c]) := by
  obtain ⟨us, mark, vs, rfl, hmark, hblanks⟩ := h
  refine ⟨us, mark, vs ++ [c], by simp, hmark, fun d hd => ?_⟩
  rw [← List.append_assoc, List.mem_append, List.mem_singleton] at hd
  rcases hd with hd | rfl
  · exact hblanks d hd
  · exact hc

end IsRun

namespace LongestRun

/-- A run is the longest one if no run goes on with the character behind it. -/
theorem of_not_isRun (h : IsRun run) (hstop : ∀ c xs, c ∈ rest.head? → ¬ IsRun (run ++ c :: xs)) :
    LongestRun run rest := by
  refine ⟨h, fun u v heq hu => ?_⟩
  rcases List.append_eq_append_iff.1 heq with ⟨w, rfl, hw⟩ | ⟨w, rfl, -⟩
  · cases w with
    | nil => rw [List.append_nil]
    | cons c w =>
      rw [hw] at hstop
      exact absurd hu (hstop c w rfl)
  · rw [List.length_append]
    exact Nat.le_add_right ..

theorem head_not_blank (h : LongestRun run rest) : ∀ c ∈ rest.head?, isBlank c = false := by
  intro c hc
  obtain ⟨xs, rfl⟩ := List.head?_eq_some_iff.1 hc
  by_contra hblank
  have := h.longest (run ++ [c]) xs (by simp) (h.isRun.concat (by simpa using hblank))
  rw [List.length_append, List.length_singleton] at this
  omega

theorem unique (h : LongestRun run rest) (h' : LongestRun run' rest') (heq : run ++ rest = run' ++ rest') :
    run = run' ∧ rest = rest' :=
  List.append_inj heq (Nat.le_antisymm (h'.longest _ _ heq.symm h.isRun) (h.longest _ _ heq h'.isRun))

/-- The text behind a run has no blanks at its start. -/
theorem trim_eq (h : LongestRun run (xs ++ ys)) : trim xs = trimEnd xs := by
  have hstart : trimStart xs = xs := by
    cases xs with
    | nil => rfl
    | cons c xs => exact List.dropWhile_cons_of_neg (Bool.eq_false_iff.1 (h.head_not_blank c rfl))
  rw [trim, hstart]

end LongestRun

/-- The run that a text begins with is the one that is read. -/
theorem longestRun_negation (body : List Char) : ∃ run, body = run ++ (negation body).2 ∧
    LongestRun run (negation body).2 ∧ ((negation body).1 = true ↔ '!' ∈ run) := by
  have hbody := takeWhile_append_trimStart body
  have hlead : ∀ c ∈ body.takeWhile isBlank, isBlank c = true := fun _ => isBlank_of_mem_takeWhile
  have hmark : '!' ∉ body.takeWhile isBlank := fun h => absurd (hlead _ h) (by decide)
  unfold negation
  split
  · next rest hrest =>
    have hrest' := takeWhile_append_trimStart rest
    have hblanks : ∀ c ∈ body.takeWhile isBlank ++ rest.takeWhile isBlank, isBlank c = true := by
      intro c hc
      rcases List.mem_append.1 hc with hc | hc
      · exact hlead c hc
      · exact isBlank_of_mem_takeWhile hc
    refine ⟨body.takeWhile isBlank ++ ['!'] ++ rest.takeWhile isBlank, ?_, ?_, ?_⟩
    · rw [List.append_assoc, hrest', List.append_assoc, List.singleton_append, ← hrest, hbody]
    · refine .of_not_isRun ⟨_, _, _, rfl, .inr rfl, hblanks⟩ fun c xs hc hrun => ?_
      -- the mark and the character behind the run are both no blanks
      have hcount := hrun.countP_le
      have hc : isBlank c = false := isBlank_of_mem_head?_dropWhile hc
      have hmark : isBlank '!' = false := rfl
      simp only [List.countP_append, List.countP_cons, List.countP_nil, hc, hmark, Bool.not_false, if_true] at hcount
      omega
    · simp
  · next hno =>
    refine ⟨body.takeWhile isBlank, hbody.symm, ?_, by simpa using hmark⟩
    refine .of_not_isRun ⟨body.takeWhile isBlank, [], [], by simp, .inl rfl, by simpa using hlead⟩ fun c xs hc hrun => ?_
    have hblank : isBlank c = false := isBlank_of_mem_head?_dropWhile hc
    obtain ⟨ds, hds⟩ := List.head?_eq_some_iff.1 hc
    rcases hrun.blank_or_mark (List.mem_append_right _ List.mem_cons_self) with h | rfl
    · rw [hblank] at h
      cases h
    · exact hno ds hds

theorem negation_append (h : LongestRun run rest) : (negation (run ++ rest)).2 = rest ∧
    ((negation (run ++ rest)).1 = true ↔ '!' ∈ run) := by
  obtain ⟨run', heq, hrun', hmark⟩ := longestRun_negation (run ++ rest)
  obtain ⟨rfl, hrest⟩ := h.unique hrun' heq
  exact ⟨hrest.symm, hmark⟩

/-! ### The binding at the start of a text -/

theorem opener?_eq_some_iff : opener? cs = some (kind, rest) ↔ cs = kind.opener ++ rest := by
  constructor
  · intro h
    unfold opener? at h
    split at h
    · cases h
      rfl
    · cases h
      rfl
    · cases h
  · rintro rfl
    cases kind <;> rfl

theorem Delimits.opens (h : Delimits kind run inner back cs) : Opens cs :=
  ⟨kind, run, _, h.eq, h.run, inner, back, rfl⟩

theorem Opens.delimits (h : Opens cs) : ∃ kind run inner back, Delimits kind run inner back cs := by
  obtain ⟨kind, run, rest, rfl, hrun, hcloser⟩ := h
  obtain ⟨inner, back, hcut⟩ := exists_cut? hcloser
  obtain ⟨rfl, hfirst⟩ := cut?_eq_some_iff.1 hcut
  exact ⟨kind, run, inner, back, rfl, hrun, hfirst⟩

/-- The binding with given delimiters, run and inner text. -/
def delimited (offset : Nat) (kind : BindingKind) (run inner : List Char) : Binding where
  kind := kind
  negated := decide ('!' ∈ run)
  expression := (inside (offset + size (kind.opener ++ run)) inner).1
  event := (inside (offset + size (kind.opener ++ run)) inner).2
  outer := .ofOffsets offset (offset + size (kind.opener ++ run ++ inner ++ kind.closer))

theorem describes_delimited (h : LongestRun run (inner ++ xs)) :
    Describes offset run inner (delimited offset kind run inner) := by
  refine ⟨decide_eq_true_iff, rfl, fun hinner => ?_, fun xs ys hinner hfirst => ?_⟩
  · rw [h.trim_eq]
    simp only [delimited, inside, cut?_eq_none_iff.2 hinner, and_self]
  · have hsize : offset + size (kind.opener ++ run) + size xs + 2 =
        offset + size (kind.opener ++ run ++ xs ++ [':', ':']) := by
      simp only [size_append, Nat.add_assoc]
      rfl
    have hcut := cut?_eq_some_iff.2 ⟨hinner, hfirst⟩
    rw [hinner, List.append_assoc, List.append_assoc] at h
    rw [h.trim_eq, delimited, ← hsize]
    simp only [inside, hcut, and_self]

theorem Describes.eq_delimited (h : Describes offset run inner b) (hrun : LongestRun run (inner ++ xs)) :
    b = delimited offset b.kind run inner := by
  have h' := @describes_delimited b.kind run inner xs offset hrun
  have hparts : b.expression = (delimited offset b.kind run inner).expression ∧
      b.event = (delimited offset b.kind run inner).event := by
    by_cases hinner : [':', ':'] <:+: inner
    · obtain ⟨xs, ys, hcut⟩ := exists_cut? hinner
      obtain ⟨heq, hfirst⟩ := cut?_eq_some_iff.1 hcut
      obtain ⟨hexpression, hevent⟩ := h.event xs ys heq hfirst
      obtain ⟨hexpression', hevent'⟩ := h'.event xs ys heq hfirst
      exact ⟨hexpression.trans hexpression'.symm, hevent.trans hevent'.symm⟩
    · obtain ⟨hexpression, hevent⟩ := h.plain hinner
      obtain ⟨hexpression', hevent'⟩ := h'.plain hinner
      exact ⟨hexpression.trans hexpression'.symm, hevent.trans hevent'.symm⟩
  have hnegated : b.negated = decide ('!' ∈ run) := by rw [Bool.eq_iff_iff, h.negated, decide_eq_true_iff]
  have houter := h.outer
  obtain ⟨kind, negated, expression, event, outer⟩ := b
  exact Binding.mk.injEq .. ▸ ⟨rfl, hnegated, hparts.1, hparts.2, houter⟩

theorem here?_of_delimits (h : Delimits kind run inner back cs) :
    here? offset cs = some (delimited offset kind run inner, back) := by
  obtain ⟨rfl, hrun, hfirst⟩ := h
  have hopener := opener?_eq_some_iff.2 (List.append_assoc kind.opener run (inner ++ kind.closer ++ back))
  obtain ⟨hinner, hmark⟩ := negation_append hrun
  have hnegated : (negation (run ++ (inner ++ kind.closer ++ back))).1 = decide ('!' ∈ run) := by
    rw [Bool.eq_iff_iff, hmark, decide_eq_true_iff]
  have hcut := cut?_eq_some_iff.2 ⟨rfl, hfirst⟩
  have hstart : size (kind.opener ++ run ++ (inner ++ kind.closer ++ back)) - size (inner ++ kind.closer ++ back) =
      size (kind.opener ++ run) := by
    rw [size_append, Nat.add_sub_cancel]
  have hstop : size (kind.opener ++ run ++ (inner ++ kind.closer ++ back)) - size back =
      size (kind.opener ++ run ++ inner ++ kind.closer) := by
    rw [← List.append_assoc, ← List.append_assoc, size_append _ back, Nat.add_sub_cancel]
  simp only [here?, hopener, Option.bind_eq_bind, Option.bind_some, hinner, hnegated, hcut, hstart, hstop,
    Option.pure_def, delimited]

theorem exists_delimits_of_here? (h : here? offset cs = some (b, back)) :
    ∃ run inner, Delimits b.kind run inner back cs := by
  simp only [here?, Option.bind_eq_bind, Option.bind_eq_some_iff, Option.pure_def,
    Option.some.injEq, Prod.mk.injEq, Prod.exists] at h
  obtain ⟨kind, body, hopener, inner, tail, hcut, rfl, rfl⟩ := h
  obtain rfl := opener?_eq_some_iff.1 hopener
  obtain ⟨run, hbody, hrun, -⟩ := longestRun_negation body
  obtain ⟨hinner, hfirst⟩ := cut?_eq_some_iff.1 hcut
  rw [hinner] at hbody hrun hfirst
  exact ⟨run, inner, by rw [List.append_assoc]; exact congrArg _ hbody, hrun, hfirst⟩

/-- The binding at the start of a text is the one that the delimiters there describe. -/
theorem exists_of_here? (h : here? offset cs = some (b, back)) :
    ∃ run inner, Delimits b.kind run inner back cs ∧ b = delimited offset b.kind run inner := by
  obtain ⟨run, inner, hdelimits⟩ := exists_delimits_of_here? h
  have hb := @here?_of_delimits _ _ _ _ _ offset hdelimits
  rw [h, Option.some.injEq, Prod.mk.injEq] at hb
  exact ⟨run, inner, hdelimits, hb.1⟩

theorem here?_eq_none_iff : here? offset cs = none ↔ ¬ Opens cs := by
  rw [Option.eq_none_iff_forall_not_mem]
  constructor
  · intro h hopens
    obtain ⟨kind, run, inner, back, hdelimits⟩ := hopens.delimits
    exact h _ (here?_of_delimits hdelimits)
  · rintro h ⟨b, back⟩ hhere
    obtain ⟨run, inner, hdelimits⟩ := exists_delimits_of_here? hhere
    exact h hdelimits.opens

/-! ### The first binding of a text -/

theorem size_of_opener? {x y : Char} (h : (opener? (x :: y :: cs)).isSome) : x.utf8Size + y.utf8Size = 2 := by
  obtain ⟨⟨kind, body⟩, hbody⟩ := Option.isSome_iff_exists.1 h
  have hcs := opener?_eq_some_iff.1 hbody
  cases kind with
  | oneWay =>
    obtain ⟨rfl, heq⟩ := List.cons.inj hcs
    obtain ⟨rfl, -⟩ := List.cons.inj heq
    rfl
  | twoWay =>
    obtain ⟨rfl, heq⟩ := List.cons.inj hcs
    obtain ⟨rfl, -⟩ := List.cons.inj heq
    rfl

theorem Opens.two_le (h : Opens cs) : 2 ≤ cs.length := by
  obtain ⟨kind, run, rest, rfl, -⟩ := h
  have hopener : kind.opener.length = 2 := by cases kind <;> rfl
  rw [List.length_append, List.length_append, hopener, Nat.add_assoc]
  exact Nat.le_add_right ..

/-- Behind an opener without closer, the same opener one character further has none either. -/
theorem not_opens_second {x y : Char} (hopener : (opener? (x :: y :: cs)).isSome) (h : ¬ Opens (x :: y :: cs)) :
    ¬ Opens (y :: cs) := by
  rintro ⟨kind', run, rest, heq, -, hcloser⟩
  apply h
  obtain ⟨⟨kind, body⟩, hbody⟩ := Option.isSome_iff_exists.1 hopener
  have hcs := opener?_eq_some_iff.1 hbody
  -- the character that both openers share is the same, so the kinds are
  obtain ⟨c, hc, hc', hblank, hmark⟩ : ∃ c, kind.opener = [c, c] ∧ kind'.opener = [c, c] ∧ isBlank c = false ∧ c ≠ '!' := by
    cases kind <;> cases kind' <;> simp_all [BindingKind.opener] <;> decide
  obtain rfl : kind = kind' := by
    cases kind <;> cases kind' <;> simp_all [BindingKind.opener]
  rw [hc, List.cons_append, List.cons_append, List.cons.injEq, List.cons.injEq] at hcs
  rw [hc, List.cons_append, List.cons_append, List.cons_append, List.cons.injEq] at heq
  obtain ⟨rfl, rfl, -⟩ := hcs
  obtain ⟨-, rfl⟩ := heq
  refine ⟨kind, [], y :: (run ++ rest), by rw [hc]; rfl, ?_, ?_⟩
  · refine .of_not_isRun ⟨[], [], [], rfl, .inl rfl, by simp⟩ fun d xs hd hrun => ?_
    obtain rfl := Option.some.inj hd
    rcases hrun.blank_or_mark (List.mem_append_right _ List.mem_cons_self) with h | h
    · rw [hblank] at h
      cases h
    · exact hmark h
  · exact hcloser.trans ((List.suffix_append run rest).trans (List.suffix_cons y _)).isInfix

/-- No place of a text before `skipped` ends opens a binding. -/
def Barren (skipped text : List Char) : Prop :=
  ∀ u v, skipped ++ text = u ++ v → u.length < skipped.length → ¬ Opens v

theorem barren_nil (text : List Char) : Barren [] text := fun u _ _ h => absurd h (Nat.not_lt_zero u.length)

theorem Barren.cons {skipped text : List Char} {c : Char} (h : Barren skipped text)
    (hc : ¬ Opens (c :: (skipped ++ text))) : Barren (c :: skipped) text := by
  intro u v heq hlength
  cases u with
  | nil =>
    rw [List.nil_append] at heq
    rwa [← heq]
  | cons d u =>
    rw [List.cons_append, List.cons_append, List.cons.injEq] at heq
    exact h u v heq.2 (Nat.lt_of_succ_lt_succ hlength)

/-- The first binding of a text is the one that the leftmost delimiters describe. -/
theorem exists_of_next? (h : next? offset cs = some (b, rest)) : ∃ skipped text run inner,
    cs = skipped ++ text ∧ Barren skipped text ∧ Delimits b.kind run inner rest text ∧
      b = delimited (offset + size skipped) b.kind run inner := by
  fun_induction next? offset cs with
  | case1 offset x y cs found hhere =>
    obtain rfl := Option.some.inj h
    obtain ⟨run, inner, hdelimits, hb⟩ := exists_of_here? hhere
    exact ⟨[], _, run, inner, rfl, barren_nil _, hdelimits, hb⟩
  | case2 offset x y cs hhere hopener ih =>
    obtain ⟨skipped, text, run, inner, rfl, hbarren, hdelimits, hb⟩ := ih h
    have hnot := here?_eq_none_iff.1 hhere
    have hsize : offset + size (x :: y :: skipped) = offset + 2 + size skipped := by
      have hmark := size_of_opener? hopener
      simp only [size_cons]
      omega
    exact ⟨x :: y :: skipped, text, run, inner, rfl, (hbarren.cons (not_opens_second hopener hnot)).cons hnot,
      hdelimits, by rwa [hsize]⟩
  | case3 offset x y cs hhere hopener ih =>
    obtain ⟨skipped, text, run, inner, htext, hbarren, hdelimits, hb⟩ := ih h
    have hnot := here?_eq_none_iff.1 hhere
    rw [htext] at hnot
    exact ⟨x :: skipped, text, run, inner, congrArg (x :: ·) htext, hbarren.cons hnot, hdelimits,
      by rwa [size_cons, ← Nat.add_assoc]⟩
  | case4 => cases h

/-- Without a binding no place of a text opens one. -/
theorem not_opens_of_next? {u v : List Char} (h : next? offset cs = none) (hcs : cs = u ++ v) : ¬ Opens v := by
  fun_induction next? offset cs generalizing u with
  | case1 => cases h
  | case2 offset x y cs hhere hopener ih =>
    have hnot := here?_eq_none_iff.1 hhere
    rcases u with _ | ⟨c, _ | ⟨d, u⟩⟩
    · rwa [hcs] at hnot
    · obtain ⟨-, rfl⟩ := List.cons.inj hcs
      exact not_opens_second hopener hnot
    · exact ih h (List.cons.inj (List.cons.inj hcs).2).2
  | case3 offset x y cs hhere hopener ih =>
    cases u with
    | nil =>
      rw [hcs] at hhere
      exact here?_eq_none_iff.1 hhere
    | cons c u => exact ih h (List.cons.inj hcs).2
  | case4 cs offset hshort =>
    intro hopens
    have htwo := hopens.two_le
    have hlength := congrArg List.length hcs
    rw [List.length_append] at hlength
    rcases cs with _ | ⟨x, _ | ⟨y, cs⟩⟩
    · rw [List.length_nil] at hlength
      omega
    · rw [List.length_singleton] at hlength
      omega
    · exact hshort x y cs rfl

theorem next?_eq_none_iff : next? offset cs = none ↔ ∀ u v, cs = u ++ v → ¬ Opens v := by
  refine ⟨fun h u v => not_opens_of_next? h, fun h => ?_⟩
  rw [Option.eq_none_iff_forall_not_mem]
  rintro ⟨b, rest⟩ hnext
  obtain ⟨skipped, text, run, inner, hcs, -, hdelimits, -⟩ := exists_of_next? hnext
  exact h skipped text hcs hdelimits.opens

/-- The leftmost delimiters describe the first binding of a text. -/
theorem next?_of_delimits {skipped text : List Char} (hbarren : Barren skipped text)
    (h : Delimits kind run inner rest text) :
    next? offset (skipped ++ text) = some (delimited (offset + size skipped) kind run inner, rest) := by
  cases hnext : next? offset (skipped ++ text) with
  | none => exact absurd h.opens (not_opens_of_next? hnext rfl)
  | some found =>
    obtain ⟨b, rest'⟩ := found
    obtain ⟨skipped', text', run', inner', heq, hbarren', h', hb⟩ := exists_of_next? hnext
    have hle : skipped.length ≤ skipped'.length :=
      Nat.le_of_not_lt fun hlt => hbarren _ _ heq hlt h'.opens
    have hge : skipped'.length ≤ skipped.length :=
      Nat.le_of_not_lt fun hlt => hbarren' _ _ heq.symm hlt h.opens
    obtain ⟨rfl, rfl⟩ := List.append_inj heq (Nat.le_antisymm hle hge)
    rw [← here?_of_delimits h, here?_of_delimits h', ← hb]

theorem scan_of_next? (h : next? offset cs = some (b, rest)) :
    scan offset cs = b :: scan (offset + (size cs - size rest)) rest := by
  rw [scan]
  split
  · next b' rest' h' =>
    rw [h] at h'
    cases h'
    rfl
  · next h' =>
    rw [h] at h'
    cases h'

theorem scan_of_next?_none (h : next? offset cs = none) : scan offset cs = [] := by
  rw [scan]
  split
  · next h' =>
    rw [h] at h'
    cases h'
  · rfl

end Binding
end Relabel
