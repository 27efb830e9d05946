import Relabel.Proofs.Binding.Standing

/-!
# The names in bindings lie one after another

The names of a binding are its path, or its method and the paths among the arguments. The names of all
bindings of a text are in the order of the text and do not overlap (`ordered_names`): a binding is
scanned behind the one before it, a method stands before the parenthesis, and an argument before its
comma. The order is that of spans, so it needs a text that ends below the last word.
-/

namespace Relabel
open Text

/-! ### Expressions -/

def Argument.path? : Argument → Option Piece
  | .path p => some p
  | .literal _ => none

def Argument.literal? : Argument → Option Piece
  | .path _ => none
  | .literal p => some p

/-- The pieces of an expression that name something. -/
def Expression.names : Expression → List Piece
  | .path p => [p]
  | .literal _ => []
  | .call method args => method :: args.filterMap Argument.path?

/-- The literals that an expression calls a method with. -/
def Expression.literals : Expression → List Piece
  | .path _ => []
  | .literal _ => []
  | .call _ args => args.filterMap Argument.literal?

/-- The pieces of a binding that name something. -/
def Binding.names (b : Binding) : List Piece :=
  (Expression.ofPiece b.expression).names

/-- The literals that a binding calls a method with. -/
def Binding.literals (b : Binding) : List Piece :=
  (Expression.ofPiece b.expression).literals

variable {p q : Piece} {start offset : Nat} {cs : List Char} {b : Binding}

theorem Argument.path?_eq_some {a : Argument} (h : a.path? = some p) : a = .path p := by
  cases a with
  | literal piece => cases h
  | path piece => rw [Option.some.inj h]

theorem ordered_locateParts {parts : List (List Char)}
    (hfit : start + size ([','].intercalate parts) < UInt32.size) :
    (locateParts start parts).Pairwise Piece.Ahead := by
  induction parts generalizing start with
  | nil => exact .nil
  | cons part parts ih =>
    cases parts with
    | nil =>
      simp only [locateParts]
      split
      · exact .nil
      · exact List.pairwise_singleton ..
    | cons part' parts =>
      have hcomma : size [','] = 1 := rfl
      rw [List.intercalate_cons_cons, size_append, size_append, hcomma] at hfit
      have hrest : (locateParts (start + size part + 1) (part' :: parts)).Pairwise Piece.Ahead :=
        ih (by omega)
      rw [locateParts]
      split
      · exact hrest
      · refine List.pairwise_cons.2 ⟨fun q hq => ?_, hrest⟩
        have hpart := (Piece.stands_trimmedAt start part).stop_le (by omega)
        have hrest := (stands_locateParts hq).start_le (by omega)
        unfold Piece.Ahead
        omega

namespace Expression

theorem stands_of_mem_names (hp : p.Stands start cs) (hq : q ∈ (ofPiece p).names) : q.Stands start cs := by
  cases h : ofPiece p with
  | path piece =>
    rw [h] at hq
    obtain rfl := List.mem_singleton.1 hq
    exact stands_path hp h
  | literal piece =>
    rw [h] at hq
    cases hq
  | call method args =>
    rw [h] at hq
    obtain ⟨hmethod, hargs⟩ := stands_call hp h
    rcases List.mem_cons.1 hq with rfl | hq
    · exact hmethod
    · obtain ⟨a, ha, haq⟩ := List.mem_filterMap.1 hq
      exact hargs q (Argument.path?_eq_some haq ▸ ha)

theorem inside_of_mem_names (hp : p.Stands start cs) (hfit : start + size cs < UInt32.size)
    (hq : q ∈ (ofPiece p).names) : q.Inside p :=
  hp.inside hfit (stands_of_mem_names hp.self hq)

theorem inside_argument (hp : p.Stands start cs) (hfit : start + size cs < UInt32.size)
    (h : Argument.ofPiece p = .path q) : q.Inside p :=
  hp.inside hfit (stands_argument hp.self h)

/-- The method of a call comes first, then the arguments in their order. -/
theorem ordered_names (hfit : p.span.start + size p.text.toList < UInt32.size) :
    (ofPiece p).names.Pairwise Piece.Ahead := by
  cases h : ofPiece p with
  | path piece => exact List.pairwise_singleton ..
  | literal piece => exact .nil
  | call method args =>
    obtain ⟨name, between, inner, hcs, hne, rfl, rfl⟩ := parts_of_call h
    rw [hcs, size_append, size_append] at hfit
    have hinner : p.span.start + size (name ++ between) +
        size ([','].intercalate (commaParts .outside inner)) < UInt32.size := by
      rw [intercalate_commaParts]
      omega
    have hargument {b q : Piece} (hq : (Argument.ofPiece b).path? = some q)
        (hb : b ∈ splitArguments inner (p.span.start + size (name ++ between))) : q.Inside b :=
      inside_argument (stands_locateParts hb) hinner (Argument.path?_eq_some hq)
    simp only [names, List.filterMap_map, List.pairwise_cons, List.mem_filterMap,
      List.pairwise_filterMap]
    constructor
    · rintro q ⟨b, hb, hq⟩
      have hstart := (stands_locateParts hb).start_le hinner
      have hinside := (hargument hq hb).1
      have hpos : 0 < size between := Nat.pos_of_ne_zero fun hzero => hne (size_eq_zero.1 hzero)
      rw [size_append] at hstart hfit
      unfold Piece.Ahead
      rw [Piece.located_of_lt (by omega)]
      simp only
      omega
    · refine (ordered_locateParts hinner).imp_of_mem fun hb hb' hbefore q hq q' hq' => ?_
      exact hbefore.of_inside (hargument hq hb) (hargument hq' hb')

end Expression

/-! ### Bindings -/

namespace Binding

theorem stands_of_mem_names (hb : b ∈ scan offset cs) (hp : p ∈ b.names) : p.Stands offset cs :=
  Expression.stands_of_mem_names (stands_scan hb) hp

/-- The expressions of bindings lie one after another. -/
theorem ordered_scan (hfit : offset + size cs < UInt32.size) :
    (scan offset cs).Pairwise fun a b => a.expression.Ahead b.expression := by
  fun_induction scan offset cs with
  | case1 offset cs b rest hnext _ ih =>
    obtain ⟨before, rfl, hb⟩ := stands_next? hnext
    rw [size_append, Nat.add_sub_cancel] at ih ⊢
    rw [size_append, ← Nat.add_assoc] at hfit
    refine List.pairwise_cons.2 ⟨fun b' hb' => ?_, ih hfit⟩
    have hexpression := hb.stop_le (by omega)
    have hrest := lead_lt_of_mem_scan hfit hb'
    unfold Piece.Ahead
    omega
  | case2 => exact .nil

/-- All names in the bindings of a text lie one after another. -/
theorem ordered_names {value : String} (hfit : offset + size value.toList < UInt32.size) :
    ((findAll value offset).flatMap names).Pairwise Piece.Ahead := by
  rw [List.pairwise_flatMap]
  refine ⟨fun b hb => Expression.ordered_names ((stands_scan hb).fits hfit), ?_⟩
  refine (ordered_scan hfit).imp_of_mem fun hb hb' hbefore p hp q hq => ?_
  exact hbefore.of_inside (Expression.inside_of_mem_names (stands_scan hb) hfit hp)
    (Expression.inside_of_mem_names (stands_scan hb') hfit hq)

theorem opener?_eq_none {c : Char} (hc : c ≠ '[' ∧ c ≠ '\x7b') : opener? (c :: cs) = none := by
  unfold opener?
  split
  · next heq => exact absurd (List.cons.inj heq).1 hc.1
  · next heq => exact absurd (List.cons.inj heq).1 hc.2
  · rfl

/-- Without an opening delimiter there is no binding. -/
theorem scan_eq_nil (hcs : ∀ c ∈ cs, c ≠ '[' ∧ c ≠ '\x7b') : scan offset cs = [] := by
  apply scan_of_next?_none
  fun_induction next? offset cs with
  | case1 offset x y cs found hhere =>
    simp [here?, opener?_eq_none (hcs x List.mem_cons_self)] at hhere
  | case2 offset x y cs hhere hopener ih =>
    rw [opener?_eq_none (hcs x List.mem_cons_self)] at hopener
    cases hopener
  | case3 offset x y cs hhere hopener ih => exact ih fun c hc => hcs c (List.mem_cons_of_mem x hc)
  | case4 => rfl

end Binding

end Relabel
