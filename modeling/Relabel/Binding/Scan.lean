import Relabel.Binding.Basic
import Relabel.Text.Cut

/-!
# Finding bindings

`Binding.scan` reads a text from left to right. A binding starts at the first opener whose closer
occurs after the blanks and the optional `!` behind it, and ends with the first such closer; an
opener without closer is passed over with both its characters.
-/

namespace Relabel.Binding

open Text

/-- The opening delimiter at the start of a text, with the text after it. -/
def opener? : List Char → Option (BindingKind × List Char)
  | '[' :: '[' :: rest => some (.oneWay, rest)
  | '{' :: '{' :: rest => some (.twoWay, rest)
  | _ => none

/-- Whether a negation mark follows the blanks at the start of a text, and the text after both. -/
def negation (cs : List Char) : Bool × List Char :=
  match trimStart cs with
  | '!' :: rest => (true, trimStart rest)
  | rest => (false, rest)

/-- The expression and the event inside delimiters, where the inside starts at `start`. -/
def inside (start : Nat) (raw : List Char) : Piece × Option Piece :=
  match cut? [':', ':'] raw with
  | some (expression, event) =>
    (Piece.located start (trimEnd expression),
      some (Piece.trimmedAt (start + size expression + 2) event))
  | none => (Piece.located start (trimEnd raw), none)

/-- The binding at the start of a text that begins at `offset`, with the text after it. -/
def here? (offset : Nat) (cs : List Char) : Option (Binding × List Char) := do
  let (kind, body) ← opener? cs
  let (negated, inner) := negation body
  let (raw, rest) ← cut? kind.closer inner
  let (expression, event) := inside (offset + (size cs - size inner)) raw
  let outer := Span.ofOffsets offset (offset + (size cs - size rest))
  return (⟨kind, negated, expression, event, outer⟩, rest)

theorem length_opener? {cs rest : List Char} {kind : BindingKind}
    (h : opener? cs = some (kind, rest)) : rest.length < cs.length := by
  have pair {k : BindingKind} {a b : Char} {r : List Char}
      (h : some (k, r) = some (kind, rest)) : rest.length < (a :: b :: r).length := by
    obtain ⟨-, rfl⟩ := Prod.mk.inj (Option.some.inj h)
    simp only [List.length_cons]
    omega
  unfold opener? at h
  split at h
  · exact pair h
  · exact pair h
  · exact nomatch h

theorem length_trimStart (cs : List Char) : (trimStart cs).length ≤ cs.length :=
  (List.dropWhile_sublist _).length_le

theorem length_negation (cs : List Char) : (negation cs).2.length ≤ cs.length := by
  have h := length_trimStart cs
  unfold negation
  split
  · next rest hr =>
    have := length_trimStart rest
    simp only [hr, List.length_cons] at h
    simp only
    omega
  · exact h

theorem length_here? {offset : Nat} {cs rest : List Char} {b : Binding}
    (h : here? offset cs = some (b, rest)) : rest.length < cs.length := by
  simp only [here?, Option.bind_eq_bind, Option.bind_eq_some_iff, Option.pure_def,
    Option.some.injEq, Prod.mk.injEq, Prod.exists] at h
  obtain ⟨kind, body, ho, raw, tail, hc, -, rfl⟩ := h
  have h1 := length_opener? ho
  have h2 := length_negation body
  have h3 := congrArg List.length (eq_append_of_cut? hc)
  simp only [List.length_append] at h3
  omega

/-- The first binding of a text that begins at `offset`, with the text after it. -/
def next? (offset : Nat) : List Char → Option (Binding × List Char)
  | a :: b :: rest =>
    match here? offset (a :: b :: rest) with
    | some found => some found
    | none =>
      if (opener? (a :: b :: rest)).isSome then next? (offset + 2) rest
      else next? (offset + a.utf8Size) (b :: rest)
  | _ => none

theorem length_next? {offset : Nat} {cs rest : List Char} {b : Binding}
    (h : next? offset cs = some (b, rest)) : rest.length < cs.length := by
  fun_induction next? offset cs with
  | case1 offset x y cs found hhere =>
    obtain rfl := Option.some.inj h
    exact length_here? hhere
  | case2 offset x y cs hhere hopener ih =>
    have := ih h
    simp only [List.length_cons]
    omega
  | case3 offset x y cs hhere hopener ih =>
    have := ih h
    simp only [List.length_cons] at this ⊢
    omega
  | case4 => cases h

/-- The bindings of a text that begins at `offset`. -/
def scan (offset : Nat) (cs : List Char) : List Binding :=
  match h : next? offset cs with
  | some (b, rest) =>
    have := length_next? h
    b :: scan (offset + (size cs - size rest)) rest
  | none => []
termination_by cs.length

/-- The bindings of a text that begins at `offset`. -/
def findAll (value : String) (offset : Nat) : List Binding :=
  scan offset value.toList

/-- The first binding of a text that begins at `offset`. -/
def find? (value : String) (offset : Nat) : Option Binding :=
  (findAll value offset).head?

end Relabel.Binding
