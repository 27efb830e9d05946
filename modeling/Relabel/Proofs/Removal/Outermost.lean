import Relabel.Proofs.Removal.Remains
import Relabel.Proofs.Script.Placement.Statements
import Relabel.Proofs.Text.Cut

/-!
# The fragments of a program

A program holds fragments wherever a statement stands: in a block, in a function, in the value of an expression. Those
that are in no other one stand behind each other in its text, and removal cuts out their bytes and nothing else
(`Removal.of_outermost`).
-/

namespace Relabel
open Text

/-- What is left of a text is cut at two bytes of it. -/
theorem Text.exists_parts {front rest : List Char} {m n : Nat} (hm : Boundary (front ++ rest) m)
    (hn : Boundary (front ++ rest) n) (hfront : size front ≤ m) (hmn : m ≤ n) :
    ∃ kept gone rest', rest = kept ++ gone ++ rest' ∧ size front + size kept = m ∧ m + size gone = n := by
  have hbegin : Boundary (front ++ rest) (size front) := ⟨front, rest, rfl, rfl⟩
  refine ⟨between (size front) m (front ++ rest), between m n (front ++ rest), after n (front ++ rest), ?_, ?_, ?_⟩
  · rw [List.append_assoc, between_append_after hm hn hmn, between_append_after hbegin hm hfront, after_append]
  · rw [size_between hbegin hm hfront]
    omega
  · rw [size_between hm hn hmn]
    omega

theorem Fragment.isKey_iff {key : String} : isKey key = true ↔ keyStart.toList <+: key.toList := by
  rw [isKey, Option.isSome_iff_exists]
  constructor
  · rintro ⟨rest, h⟩
    exact ⟨rest, (eq_append_of_stripPrefix? h).symm⟩
  · rintro ⟨rest, h⟩
    exact ⟨rest, by rw [← h, stripPrefix?_append]⟩

end Relabel

namespace Relabel.Script
open Text
variable {cs : List Char} {lo mid hi i : Nat} {t u : Tree} {ts us : List Tree} {label : Label} {span : Span}
  {p q : List Nat}

namespace Tree

/-! ### Fragments -/

/-- A statement that assigns to a property of `window`, whose name is a string that begins as the keys of fragments do,
and does nothing else. Parentheses may stand around the property, but not around the assignment. -/
inductive IsFragment : Tree → Prop where
  | intro {span assigned accessed objectSpan keySpan : Span} {operator key : String} {isOptional : Bool} {target : Tree}
      {values objectParts keyParts : List Tree}
      (target_eq : target.unwrapped = .node (.element isOptional) accessed
        [.node (.identifier "window") objectSpan objectParts, .node (.string key) keySpan keyParts])
      (key_starts : Fragment.keyStart.toList <+: key.toList) :
      IsFragment (.node .expressionStatement span [.node (.assignment operator) assigned (target :: values)])

theorem assignsFragment_iff : t.assignsFragment = true ↔ t.IsFragment := by
  constructor
  · intro h
    rw [assignsFragment.eq_def] at h
    split at h
    · rw [isFragmentKey.eq_def] at h
      split at h
      · next heq =>
        obtain ⟨hwindow, hkey⟩ := Bool.and_eq_true_iff.1 h
        obtain rfl := eq_of_beq hwindow
        exact .intro heq (Fragment.isKey_iff.1 hkey)
      · cases h
    · cases h
  · rintro ⟨htarget, hkey⟩
    rw [assignsFragment, htarget]
    simp [isFragmentKey, Fragment.isKey_iff.2 hkey]

theorem IsFragment.label_eq (h : (Tree.node label span ts).IsFragment) : label = .expressionStatement := by
  cases h
  rfl

/-! ### Places -/

/-- The part of a tree at a place: each number of the place says which child comes next. -/
def at? : Tree → List Nat → Option Tree
  | t, [] => some t
  | .node _ _ ts, i :: p => ts[i]?.bind (·.at? p)

/-- At the place a fragment stands that is in no other one. -/
structure Outermost (t : Tree) (p : List Nat) : Prop where
  fragment : ∃ s ∈ t.at? p, s.IsFragment
  outer : ∀ q, q <+: p → q ≠ p → ∀ s ∈ t.at? q, ¬ s.IsFragment

mutual

/-- The places of the fragments of a tree that are in no other one, in the order of the text. -/
def outermost : Tree → List (List Nat)
  | .node label span ts => if (Tree.node label span ts).assignsFragment then [[]] else outermostOf 0 ts

/-- The places of the fragments of some children, of which the first is the child `k`. -/
def outermostOf (k : Nat) : List Tree → List (List Nat)
  | [] => []
  | t :: ts => t.outermost.map (k :: ·) ++ outermostOf (k + 1) ts

end

theorem at?_cons : (Tree.node label span ts).at? (i :: p) = ts[i]?.bind (·.at? p) := rfl

theorem outermost_nil_iff : t.Outermost [] ↔ t.IsFragment := by
  refine ⟨fun ⟨⟨s, hs, h⟩, _⟩ => ?_, fun h => ⟨⟨t, ?_, h⟩, fun q hq hne => absurd (List.prefix_nil.1 hq) hne⟩⟩
  · obtain rfl := Option.some.inj hs
    exact h
  · rfl

theorem outermost_cons_iff : (Tree.node label span ts).Outermost (i :: p) ↔
    ¬ (Tree.node label span ts).IsFragment ∧ ∃ t, ts[i]? = some t ∧ t.Outermost p := by
  constructor
  · rintro ⟨⟨s, hs, h⟩, houter⟩
    obtain ⟨t, ht, hs⟩ := Option.bind_eq_some_iff.1 hs
    refine ⟨houter [] List.nil_prefix (by simp) _ rfl, t, ht, ⟨s, hs, h⟩, fun q hq hne s hs => ?_⟩
    refine houter (i :: q) (List.cons_prefix_cons.2 ⟨rfl, hq⟩) (by simpa using hne) s ?_
    rw [at?_cons, ht]
    exact hs
  · rintro ⟨hnot, t, ht, ⟨s, hs, h⟩, houter⟩
    refine ⟨⟨s, ?_, h⟩, fun q hq hne s hs => ?_⟩
    · rw [at?_cons, ht]
      exact hs
    · cases q with
      | nil =>
        obtain rfl := Option.some.inj hs
        exact hnot
      | cons j q =>
        obtain ⟨rfl, hprefix⟩ := List.cons_prefix_cons.1 hq
        rw [at?_cons, ht] at hs
        exact houter q hprefix (by simpa using hne) s hs

mutual

theorem mem_outermost : ∀ {t : Tree} {p : List Nat}, p ∈ t.outermost ↔ t.Outermost p
  | .node label span ts, p => by
    rw [outermost]
    by_cases h : (Tree.node label span ts).assignsFragment = true
    · rw [if_pos h, List.mem_singleton]
      rw [assignsFragment_iff] at h
      cases p with
      | nil => exact iff_of_true rfl (outermost_nil_iff.2 h)
      | cons i p => exact iff_of_false nofun fun hp => (outermost_cons_iff.1 hp).1 h
    · rw [if_neg h, mem_outermostOf]
      rw [assignsFragment_iff] at h
      cases p with
      | nil => exact iff_of_false (by simp) fun hp => h (outermost_nil_iff.1 hp)
      | cons i p => simp [outermost_cons_iff, h]

theorem mem_outermostOf : ∀ {k : Nat} {ts : List Tree} {p : List Nat},
    p ∈ outermostOf k ts ↔ ∃ i q t, p = (k + i) :: q ∧ ts[i]? = some t ∧ t.Outermost q
  | k, [], p => by simp [outermostOf]
  | k, t :: ts, p => by
    rw [outermostOf, List.mem_append, List.mem_map, mem_outermostOf]
    constructor
    · rintro (⟨q, hq, rfl⟩ | ⟨i, q, u, rfl, hu, hq⟩)
      · exact ⟨0, q, t, rfl, rfl, mem_outermost.1 hq⟩
      · exact ⟨i + 1, q, u, by rw [Nat.add_right_comm, Nat.add_assoc], hu, hq⟩
    · rintro ⟨i, q, u, rfl, hu, hq⟩
      cases i with
      | zero =>
        obtain rfl := Option.some.inj hu
        exact .inl ⟨q, mem_outermost.2 hq, rfl⟩
      | succ i => exact .inr ⟨i, q, u, by rw [Nat.add_right_comm, Nat.add_assoc], hu, hq⟩

end

mutual

theorem nodup_outermost : ∀ t : Tree, t.outermost.Nodup
  | .node label span ts => by
    rw [outermost]
    split
    · exact List.nodup_singleton _
    · exact nodup_outermostOf 0 ts

theorem nodup_outermostOf : ∀ (k : Nat) (ts : List Tree), (outermostOf k ts).Nodup
  | k, [] => .nil
  | k, t :: ts => by
    refine List.nodup_append.2 ⟨(nodup_outermost t).map fun _ _ h => (List.cons.inj h).2, nodup_outermostOf (k + 1) ts, ?_⟩
    -- places in different children begin with different numbers
    rintro _ ha b hb rfl
    obtain ⟨q, -, rfl⟩ := List.mem_map.1 ha
    obtain ⟨i, q', u, heq, -, -⟩ := mem_outermostOf.1 hb
    have hk := (List.cons.inj heq).1
    omega

end

mutual

theorem map_fragmentSpans : ∀ t : Tree, t.fragmentSpans.map some = t.outermost.map fun p => (t.at? p).map Tree.span
  | .node label span ts => by
    rw [outermost, fragmentSpans]
    split
    · rfl
    · exact map_fragmentSpansOf label span ts 0 ts rfl

theorem map_fragmentSpansOf (label : Label) (span : Span) (us : List Tree) : ∀ (k : Nat) (ts : List Tree), us.drop k = ts →
    (fragmentSpansOf ts).map some = (outermostOf k ts).map fun p => ((Tree.node label span us).at? p).map Tree.span
  | k, [], _ => rfl
  | k, t :: ts, h => by
    have hk : us[k]? = some t := by rw [← List.head?_drop, h, List.head?_cons]
    have hrest : us.drop (k + 1) = ts := by rw [← List.tail_drop, h, List.tail_cons]
    rw [fragmentSpansOf, outermostOf, List.map_append, List.map_append, map_fragmentSpans t, List.map_map,
      map_fragmentSpansOf label span us (k + 1) ts hrest]
    refine congrArg (· ++ _) (List.map_congr_left fun p _ => ?_)
    rw [Function.comp_apply, at?_cons, hk]
    rfl

end

end Tree

/-! ### Their bytes -/

/-- Spans that stand between two bytes of a text, each behind the one before it. -/
structure InTurn (cs : List Char) (lo hi : Nat) (ss : List Span) : Prop where
  inside : ∀ s ∈ ss, s.Inside cs lo hi
  pairwise : ss.Pairwise fun a b => a.stop ≤ b.start

theorem InTurn.append {ss ss' : List Span} (h : InTurn cs lo mid ss) (h' : InTurn cs mid hi ss') (hlo : lo ≤ mid)
    (hhi : mid ≤ hi) : InTurn cs lo hi (ss ++ ss') := by
  refine ⟨fun s hs => ?_, List.pairwise_append.2 ⟨h.pairwise, h'.pairwise, fun a ha b hb => ?_⟩⟩
  · rcases List.mem_append.1 hs with hs | hs
    · exact (h.inside s hs).mono (Nat.le_refl lo) hhi
    · exact (h'.inside s hs).mono hlo (Nat.le_refl hi)
  · exact Nat.le_trans (h.inside a ha).le_hi (h'.inside b hb).lo_le

mutual

theorem Tree.Lies.inTurn : ∀ {lo hi : Nat} {t : Tree}, t.Lies cs lo hi → InTurn cs lo hi t.fragmentSpans
  | lo, hi, .node label span ts, h => by
    rw [Tree.fragmentSpans]
    split
    · next hassigns =>
      refine ⟨fun s hs => ?_, List.pairwise_singleton ..⟩
      obtain rfl := List.mem_singleton.1 hs
      exact h.1 (Tree.assignsFragment_iff.1 hassigns).label_eq
    · exact AllLie.inTurn h.2

theorem AllLie.inTurn : ∀ {lo hi : Nat} {ts : List Tree}, AllLie cs lo hi ts → InTurn cs lo hi (Tree.fragmentSpansOf ts)
  | _, _, [], _ => ⟨nofun, .nil⟩
  | _, _, _ :: _, ⟨_, ht, hts⟩ => ht.inTurn.append (AllLie.inTurn hts) ht.le (AllLie.le hts)

end

/-- What stands in turn can be cut out. -/
theorem InTurn.exists_cuts {front rest : List Char} {ss : List Span} (h : InTurn (front ++ rest) (size front) hi ss) :
    ∃ cuts tail, rest = Cut.whole cuts ++ tail ∧ (Cut.edits (size front) cuts).map Edit.span = ss := by
  induction ss generalizing front rest with
  | nil => exact ⟨[], rest, rfl, rfl⟩
  | cons s ss ih =>
    have hs := h.inside s (List.mem_cons_self ..)
    obtain ⟨hbehind, hpairwise⟩ := List.pairwise_cons.1 h.pairwise
    obtain ⟨kept, gone, rest, rfl, hkept, hgone⟩ := exists_parts hs.start hs.stop hs.lo_le hs.le
    have hstop : size (front ++ kept ++ gone) = s.stop := by rw [size_append, size_append, hkept, hgone]
    have hrest : InTurn (front ++ kept ++ gone ++ rest) (size (front ++ kept ++ gone)) hi ss := by
      refine ⟨fun x hx => ?_, hpairwise⟩
      have hx' := h.inside x (List.mem_cons_of_mem s hx)
      rw [hstop, List.append_assoc front, List.append_assoc front]
      exact ⟨hbehind x hx, hx'.le, hx'.le_hi, hx'.start, hx'.stop⟩
    obtain ⟨cuts, tail, rfl, hspans⟩ := ih hrest
    refine ⟨⟨kept, gone⟩ :: cuts, tail, by simp [Cut.whole_cons], ?_⟩
    rw [Cut.edits, List.map_cons, hkept, hgone, ← hstop, hspans, hstop]

end Relabel.Script

namespace Relabel
open Script Text

theorem Mapped.map_of_splice {document : String} {text result : Mapped} {edits : List Edit}
    (h : splice document text edits = .ok result) (hmap : text.map = none) : result.map = none := by
  cases hcheck : Edit.check document text.content.toList edits with
  | error e => simp [splice, hcheck, bind, Except.bind] at h
  | ok es =>
    simp [splice, hcheck, hmap, bind, Except.bind, pure, Except.pure] at h
    rw [← h]

namespace Removal
variable {file content : String} {tree : Tree}

/-- The fragments of a program can be cut out of its text. -/
theorem exists_cuts_of_read? (ht : read? content = some tree) :
    ∃ cuts tail, content.toList = Cut.whole cuts ++ tail ∧ (Cut.edits 0 cuts).map Edit.span = tree.fragmentSpans := by
  obtain ⟨hi, hlies⟩ := exists_allLie_of_read? ht
  obtain ⟨ts, last, stop, -, rfl, -, -⟩ := exists_isRead ht
  rw [Tree.children] at hlies
  rw [fragmentSpans_program]
  exact @InTurn.exists_cuts hi [] content.toList _ hlies.inTurn

theorem of_cuts {cuts : List Cut} {tail : List Char} (ht : read? content = some tree)
    (hcontent : content.toList = Cut.whole cuts ++ tail)
    (hspans : (Cut.edits 0 cuts).map Edit.span = tree.fragmentSpans) :
    Removal.of file ⟨content, none⟩ =
      .ok ⟨⟨.ofList (cuts.flatMap Cut.kept ++ tail), none⟩, tree.fragmentSpans.length⟩ := by
  cases cuts with
  | nil =>
    have hnone : tree.fragmentSpans = [] := hspans.symm
    have htail : content.toList = tail := hcontent
    rw [@of_spans_nil file ⟨content, none⟩ tree ht hnone, hnone, List.flatMap_nil, List.nil_append, ← htail,
      String.ofList_toList]
    rfl
  | cons c cuts =>
    obtain ⟨result, hresult⟩ := @Mapped.exists_splice_cuts file ⟨content, none⟩ _ _ nofun hcontent
    have hkept := Mapped.content_of_splice_cuts hresult hcontent
    have hmap := Mapped.map_of_splice hresult rfl
    have hedits : tree.fragmentSpans.map (fun span => (⟨span, ""⟩ : Edit)) = Cut.edits 0 (c :: cuts) := by
      rw [← hspans, Cut.map_span_edits]
    have hsome : tree.fragmentSpans.isEmpty = false := by
      rw [← hspans]
      rfl
    have hresult' : result = ⟨.ofList ((c :: cuts).flatMap Cut.kept ++ tail), none⟩ := by
      rw [← hkept, ← hmap, String.ofList_toList]
    simp [Removal.of, ht, hsome, hedits, hresult, hresult']

/-- Removal cuts the fragments that are in no other one out of a program, wherever they stand, and counts them. All
other bytes stay as they are. Where nothing is cut, the source map stays as it is too, whatever it holds. -/
theorem of_outermost (ht : read? content = some tree) :
    (∃ ps : List (List Nat), ps.Nodup ∧ (∀ p, p ∈ ps ↔ tree.Outermost p) ∧
      ∃ cuts tail, content.toList = Cut.whole cuts ++ tail ∧
        (Cut.edits 0 cuts).map (fun e => some e.span) = ps.map (fun p => (tree.at? p).map Tree.span) ∧
        Removal.of file ⟨content, none⟩ = .ok ⟨⟨.ofList (cuts.flatMap Cut.kept ++ tail), none⟩, ps.length⟩) ∧
    ((∀ p, ∀ s ∈ tree.at? p, ¬ s.IsFragment) → ∀ map, Removal.of file ⟨content, map⟩ = .ok ⟨⟨content, map⟩, 0⟩) := by
  have hspans := Tree.map_fragmentSpans tree
  refine ⟨⟨tree.outermost, tree.nodup_outermost, fun _ => Tree.mem_outermost, ?_⟩, fun hnone map => ?_⟩
  · obtain ⟨cuts, tail, hcontent, hcuts⟩ := exists_cuts_of_read? ht
    refine ⟨cuts, tail, hcontent, ?_, ?_⟩
    · rw [← hspans, ← hcuts, List.map_map]
      rfl
    · have hlength := congrArg List.length hspans
      rw [List.length_map, List.length_map] at hlength
      rw [of_cuts ht hcontent hcuts, hlength]
  · have hempty : tree.outermost = [] := List.eq_nil_iff_forall_not_mem.2 fun p hp => by
      obtain ⟨s, hs, h⟩ := (Tree.mem_outermost.1 hp).fragment
      exact hnone p s hs h
    rw [hempty, List.map_nil, List.map_eq_nil_iff] at hspans
    exact @of_spans_nil file ⟨content, map⟩ tree ht hspans

/-- A fragment in a block, with another one in it. What is assigned in parentheses is none. -/
def nestedFragments : String :=
  "if (c) \x7b window[\"polymer-rename:a\"] = () => \x7b window[\"polymer-rename:b\"] = 1; \x7d; \x7d" ++
    "(window[\"polymer-rename:c\"] = 2);"

theorem of_outermost_nested :
    ∃ tree, ∃ ps : List (List Nat), read? nestedFragments = some tree ∧ (∀ p, p ∈ ps ↔ tree.Outermost p) ∧
      ps.length = 1 ∧
      Removal.of "m.js" ⟨nestedFragments, none⟩ = .ok ⟨⟨"if (c) \x7b  \x7d(window[\"polymer-rename:c\"] = 2);", none⟩, 1⟩ := by
  have hread : (read? nestedFragments).isSome = true := by decide +kernel
  have hremoval : (Removal.of "m.js" ⟨nestedFragments, none⟩).toOption =
      some ⟨⟨"if (c) \x7b  \x7d(window[\"polymer-rename:c\"] = 2);", none⟩, 1⟩ := by
    decide +kernel
  obtain ⟨tree, htree⟩ := Option.isSome_iff_exists.1 hread
  obtain ⟨⟨ps, -, hps, cuts, tail, -, -, hcut⟩, -⟩ := @of_outermost "m.js" _ tree htree
  rw [hcut, Except.toOption] at hremoval
  obtain ⟨htext, hlength⟩ := Removal.mk.inj (Option.some.inj hremoval)
  exact ⟨tree, ps, htree, hps, hlength, by rw [hcut, htext, hlength]⟩

end Removal

end Relabel
