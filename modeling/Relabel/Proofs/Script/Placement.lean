import Relabel.Proofs.Script.Agreement

/-!
# Where trees stand

`Tree.Lies cs lo hi t`: the expression statements in the tree `t` stand between the bytes `lo` and `hi` of the
text `cs`, one behind another or one in another. A rule of the grammar builds such trees if what it is put together
from does: `Lays` says so of a step that has some trees behind it already, `Yields` of one that starts anew.
-/

namespace Relabel
open Text

/-- The span stands between two bytes of a text, and does not begin or end inside of a character. -/
structure Span.Inside (cs : List Char) (lo hi : Nat) (s : Span) : Prop where
  lo_le : lo ≤ s.start
  le : s.start ≤ s.stop
  le_hi : s.stop ≤ hi
  start : Boundary cs s.start
  stop : Boundary cs s.stop

theorem Span.Inside.mono {cs : List Char} {lo hi lo' hi' : Nat} {s : Span} (h : s.Inside cs lo hi)
    (hlo : lo' ≤ lo) (hhi : hi ≤ hi') : s.Inside cs lo' hi' :=
  ⟨Nat.le_trans hlo h.lo_le, h.le, Nat.le_trans h.le_hi hhi, h.start, h.stop⟩

end Relabel

namespace Relabel.Script
open Text Reading
variable {cs : List Char} {lo mid hi lo' hi' : Nat} {t : Tree} {ts us : List Tree}

/-! ### Trees -/

mutual

/-- The expression statements in a tree stand between two bytes, in the order of the text. -/
def Tree.Lies (cs : List Char) : Nat → Nat → Tree → Prop
  | lo, hi, .node label span children =>
    (label = .expressionStatement → span.Inside cs lo hi) ∧ AllLie cs lo hi children

/-- The expression statements in some trees stand between two bytes, those of each tree behind those of the
tree before it. -/
def AllLie (cs : List Char) : Nat → Nat → List Tree → Prop
  | lo, hi, [] => lo ≤ hi
  | lo, hi, t :: ts => ∃ mid, t.Lies cs lo mid ∧ AllLie cs mid hi ts

end

mutual

theorem Tree.Lies.le : ∀ {lo hi : Nat} {t : Tree}, t.Lies cs lo hi → lo ≤ hi
  | _, _, .node _ _ _, h => AllLie.le h.2

theorem AllLie.le : ∀ {lo hi : Nat} {ts : List Tree}, AllLie cs lo hi ts → lo ≤ hi
  | _, _, [], h => h
  | _, _, _ :: _, ⟨_, ht, hts⟩ => Nat.le_trans ht.le (AllLie.le hts)

end

mutual

theorem Tree.Lies.mono : ∀ {lo hi lo' hi' : Nat} {t : Tree}, t.Lies cs lo hi → lo' ≤ lo → hi ≤ hi' →
    t.Lies cs lo' hi'
  | _, _, _, _, .node _ _ _, h, hlo, hhi => ⟨fun hl => (h.1 hl).mono hlo hhi, AllLie.mono h.2 hlo hhi⟩

theorem AllLie.mono : ∀ {lo hi lo' hi' : Nat} {ts : List Tree}, AllLie cs lo hi ts → lo' ≤ lo → hi ≤ hi' →
    AllLie cs lo' hi' ts
  | _, _, _, _, [], h, hlo, hhi => Nat.le_trans hlo (Nat.le_trans h hhi)
  | _, _, _, _, _ :: _, ⟨mid, ht, hts⟩, hlo, hhi =>
    ⟨mid, ht.mono hlo (Nat.le_refl mid), AllLie.mono hts (Nat.le_refl mid) hhi⟩

end

theorem AllLie.append (h : AllLie cs lo mid ts) (h' : AllLie cs mid hi us) : AllLie cs lo hi (ts ++ us) := by
  induction ts generalizing lo with
  | nil => exact h'.mono h (Nat.le_refl hi)
  | cons t ts ih =>
    obtain ⟨m, ht, hts⟩ := h
    exact ⟨m, ht, ih hts⟩

theorem allLie_append : AllLie cs lo hi (ts ++ us) ↔ ∃ mid, AllLie cs lo mid ts ∧ AllLie cs mid hi us := by
  refine ⟨fun h => ?_, fun ⟨_, h, h'⟩ => h.append h'⟩
  induction ts generalizing lo with
  | nil => exact ⟨lo, Nat.le_refl lo, h⟩
  | cons t ts ih =>
    obtain ⟨m, ht, hts⟩ := h
    obtain ⟨mid, hts, hus⟩ := ih hts
    exact ⟨mid, ⟨m, ht, hts⟩, hus⟩

theorem allLie_singleton : AllLie cs lo hi [t] ↔ t.Lies cs lo hi :=
  ⟨fun ⟨_, ht, hle⟩ => ht.mono (Nat.le_refl lo) hle, fun ht => ⟨hi, ht, Nat.le_refl hi⟩⟩

theorem AllLie.tail (h : AllLie cs lo hi (t :: ts)) : AllLie cs lo hi ts := by
  obtain ⟨mid, ht, hts⟩ := h
  exact hts.mono ht.le (Nat.le_refl hi)

theorem Tree.Lies.children (h : t.Lies cs lo hi) : AllLie cs lo hi t.children := by
  obtain ⟨label, span, children⟩ := t
  exact h.2

/-- A node that is no expression statement itself. -/
theorem Tree.lies_node {label : Label} {span : Span} (hl : label ≠ .expressionStatement) (h : AllLie cs lo hi ts) :
    (Tree.node label span ts).Lies cs lo hi :=
  ⟨fun he => absurd he hl, h⟩

/-- The last of some trees may be put into a node that is no expression statement. -/
theorem AllLie.nodeOf {label : Label} {span : Span} (hl : label ≠ .expressionStatement) (h : AllLie cs lo hi (ts ++ us)) :
    AllLie cs lo hi (ts ++ [.node label span us]) := by
  obtain ⟨mid, hts, hus⟩ := allLie_append.1 h
  exact hts.append (allLie_singleton.2 (Tree.lies_node hl hus))

/-- A node of all that lies between two bytes, whatever it is. -/
theorem AllLie.lies_node {label : Label} (h : AllLie cs lo hi ts) (hlo : Boundary cs lo) (hhi : Boundary cs hi) :
    (Tree.node label ⟨lo, hi⟩ ts).Lies cs lo hi :=
  ⟨fun _ => ⟨Nat.le_refl lo, h.le, Nat.le_refl hi, hlo, hhi⟩, h⟩

mutual

/-- A pattern lies where the expression that spells it does. -/
theorem Tree.Lies.asPattern : ∀ {lo hi : Nat} {place : PatternPlace} {t p : Tree}, t.Lies cs lo hi →
    t.asPattern place = some p → p.Lies cs lo hi
  | lo, hi, place, .node label span children, p, h, hp => by
    have hself (heq : some (Tree.node label span children) = some p) : p.Lies cs lo hi := by
      obtain rfl := Option.some.inj heq
      exact h
    have hnode {l : Label} (heq : some (Tree.node l span children) = some p) (hl : l ≠ .expressionStatement) :
        p.Lies cs lo hi := by
      obtain rfl := Option.some.inj heq
      exact Tree.lies_node hl h.2
    have hmap {l : Label} {inner : PatternPlace}
        (heq : (Tree.asPatterns inner children).map (.node l span) = some p) (hl : l ≠ .expressionStatement) :
        p.Lies cs lo hi := by
      obtain ⟨ps, hps, rfl⟩ := Option.map_eq_some_iff.1 heq
      exact Tree.lies_node hl (AllLie.asPatterns h.2 hps)
    have hif {b : Prop} [Decidable b] {x : Option Tree} (heq : (if b then x else none) = some p)
        (hx : x = some p → p.Lies cs lo hi) : p.Lies cs lo hi := by
      split at heq
      · exact hx heq
      · cases heq
    rw [Tree.asPattern.eq_def] at hp
    dsimp only at hp
    split at hp
    case h_1 => exact hmap hp nofun
    case h_3 => exact hnode hp nofun
    case h_4 => exact hif hp fun hp => hnode hp nofun
    case h_5 => cases hp
    case h_10 => exact hmap hp nofun
    case h_11 => exact hif hp fun hp => hnode hp nofun
    case h_12 => exact hif hp fun hp => hmap hp nofun
    case h_13 => exact hif hp fun hp => hmap hp nofun
    case h_14 => exact hif hp hself
    all_goals exact hself hp

theorem AllLie.asPatterns : ∀ {lo hi : Nat} {place : PatternPlace} {ts ps : List Tree}, AllLie cs lo hi ts →
    Tree.asPatterns place ts = some ps → AllLie cs lo hi ps
  | _, _, _, [], ps, h, hps => by
    obtain rfl := Option.some.inj hps
    exact h
  | _, _, _, t :: ts, ps, ⟨mid, ht, hts⟩, hps => by
    simp only [Tree.asPatterns, Option.bind_eq_bind, Option.bind_eq_some_iff, Option.pure_def, Option.some.injEq] at hps
    obtain ⟨q, hq, qs, hqs, rfl⟩ := hps
    exact ⟨mid, ht.asPattern hq, AllLie.asPatterns hts hqs⟩

end

theorem AllLie.asParameters {trailing : Bool} {ps : List Tree} (h : AllLie cs lo hi ts)
    (hps : Tree.asParameters trailing ts = some ps) : AllLie cs lo hi ps := by
  simp only [Tree.asParameters, Option.bind_eq_bind, Option.bind_eq_some_iff, Option.guard_eq_some', Option.pure_def,
    Option.some.injEq] at hps
  obtain ⟨-, -, ps', hps, -, -, rfl⟩ := hps
  exact h.asPatterns hps

theorem Tree.Lies.arrowParameters {ps : List Tree} (h : t.Lies cs lo hi) (hps : t.arrowParameters? = some ps) :
    AllLie cs lo hi ps := by
  rw [Tree.arrowParameters?.eq_def] at hps
  split at hps
  · obtain rfl := Option.some.inj hps
    exact allLie_singleton.2 h
  · exact (allLie_singleton.1 h.2).2.asParameters hps
  · exact h.2.asParameters hps
  · exact h.2.asParameters hps
  · cases hps

/-! ### Cursors -/

theorem Takes.boundary {n : Nat} {rest : List Char} (h : Takes n cs rest) : Boundary cs n := by
  obtain ⟨token, rfl, hn⟩ := h
  exact ⟨token, rest, rfl, hn⟩

/-- The cursor stands in a text, as far as trees are placed by it. Behind text that is no token nothing is left. -/
structure Cursor.On (cs : List Char) (c : Cursor) : Prop where
  last : Boundary cs c.last
  start : Boundary cs c.start
  stop : Boundary cs c.stop
  last_le : c.last ≤ c.start
  start_le : c.start ≤ c.stop
  rest : Takes c.stop cs c.rest ∨ c.rest = []
  mark : ∀ m, c.token = .mark m → Takes c.stop cs c.rest ∧ c.stop = c.start + m.length

namespace Cursor
variable {c : Cursor} {b last offset : Nat} {part : GapPart} {rest : List Char}

theorem on_reading (hlast : Boundary cs last) (hle : last ≤ offset) (hoffset : Boundary cs offset)
    (hrest : Takes offset cs rest ∨ rest = []) : (reading b last offset part rest).On cs := by
  have hinvalid : (⟨.invalid, offset, offset, false, last, [], b⟩ : Cursor).On cs :=
    ⟨hlast, hoffset, hoffset, hle, Nat.le_refl offset, .inr rfl, fun m hm => by cases hm⟩
  rw [reading]
  cases hg : gap? false offset part rest with
  | none => exact hinvalid
  | some g =>
    cases hl : lexeme? b g.rest with
    | none => simpa [hl] using hinvalid
    | some l =>
      simp only [hl, Option.bind_eq_bind, Option.bind_some, Option.pure_def, Option.getD_some]
      obtain ⟨k, hk, hgap⟩ := takes_gap? hg
      have hle : last ≤ g.offset := by omega
      rcases hrest with hrest | rfl
      · have hstart : Takes g.offset cs g.rest := (hrest.trans hgap).of_eq hk.symm
        have hstop : Takes (g.offset + l.size) cs l.rest := hstart.trans (takes_lexeme? hl)
        exact ⟨hlast, hstart.boundary, hstop.boundary, hle, Nat.le_add_right .., .inl hstop,
          fun m hm => ⟨hstop, by rw [size_of_mark hl hm]⟩⟩
      · -- at the end of the text the only token is its end
        have hsize := hgap.size_eq
        rw [size_nil] at hsize
        rw [size_eq_zero.1 (show size g.rest = 0 by omega)] at hl
        obtain rfl := Option.some.inj hl
        obtain hk : g.offset = offset := by omega
        exact ⟨hlast, hk ▸ hoffset, hk ▸ hoffset, hle, Nat.le_refl _, .inr rfl, fun m hm => by cases hm⟩

theorem On.next (h : c.On cs) : c.next.On cs :=
  on_reading h.stop (Nat.le_refl _) h.stop h.rest

theorem last_reading (b last offset : Nat) (part : GapPart) (rest : List Char) :
    (reading b last offset part rest).last = last := by
  rw [reading]
  cases gap? false offset part rest with
  | none => rfl
  | some g => cases hl : lexeme? b g.rest <;> simp [hl]

theorem last_next (c : Cursor) : c.next.last = c.stop :=
  last_reading ..

theorem On.reread {l : Option Lexeme} (h : c.On cs)
    (hl : ∀ l', l = some l' → (∀ m, l'.token ≠ .mark m) ∧ ∃ k, l'.size = c.stop - c.start + k ∧ Takes k c.rest l'.rest)
    (hrest : Takes c.stop cs c.rest) : (c.reread l).On cs := by
  cases l with
  | none => exact ⟨h.last, h.start, h.stop, h.last_le, h.start_le, h.rest, fun m hm => by cases hm⟩
  | some l =>
    obtain ⟨hmark, k, hk, htakes⟩ := hl l rfl
    have hle := h.start_le
    have hstop : Takes (c.start + l.size) cs l.rest := (hrest.trans htakes).of_eq (by omega)
    exact ⟨h.last, h.start, hstop.boundary, h.last_le, Nat.le_add_right .., .inl hstop, fun m hm => absurd hm (hmark m)⟩

theorem On.asTemplate (h : c.On cs) : c.asTemplate.On cs := by
  rw [Cursor.asTemplate]
  split
  · next hbrace =>
    obtain ⟨hrest, hstop⟩ := h.mark _ hbrace
    refine h.reread (fun l hl => ⟨fun m hm => ?_, ?_⟩) hrest
    · obtain ⟨text, valid, isLast, htoken⟩ := template?_token hl
      rw [htoken] at hm
      cases hm
    · obtain ⟨k, hk, htakes⟩ := takes_template? hl
      exact ⟨k, by rw [hk, hstop, Nat.add_sub_cancel_left]; rfl, htakes⟩
  · exact h

theorem On.asRegex (h : c.On cs) : c.asRegex.On cs := by
  have hmark {ds : List Char} {l : Lexeme} (hl : regex? ds = some l) (m : String) : l.token ≠ .mark m := by
    obtain ⟨text, htoken⟩ := Sequel.regex?_token hl
    rw [htoken]
    exact fun h => by cases h
  rw [Cursor.asRegex]
  split
  · next hslash =>
    obtain ⟨hrest, hstop⟩ := h.mark _ hslash
    refine h.reread (fun l hl => ⟨hmark hl, ?_⟩) hrest
    obtain ⟨k, hk, -, htakes⟩ := takes_regex? hl
    exact ⟨k, by rw [hk, hstop, Nat.add_sub_cancel_left]; rfl, htakes⟩
  · next hdivide =>
    obtain ⟨hrest, hstop⟩ := h.mark _ hdivide
    refine h.reread (fun l hl => ⟨hmark hl, ?_⟩) hrest
    obtain ⟨k, hk, hpos, htakes⟩ := takes_regex? hl
    refine ⟨k - 1, ?_, @Takes.of_append k c.rest l.rest ['='] htakes hpos⟩
    rw [hk, hstop, Nat.add_sub_cancel_left]
    show 1 + k = 2 + (k - 1)
    omega
  · exact h

theorem on_first (cs : List Char) : (first cs).On cs := by
  rw [first.eq_def]
  split
  · next ds =>
    have htakes : Takes 2 ('#' :: '!' :: ds) ds := ((Takes.nil ds).succ rfl).succ rfl
    exact on_reading (Takes.nil _).boundary (Nat.zero_le 2) htakes.boundary (.inl htakes)
  · exact on_reading (Takes.nil cs).boundary (Nat.le_refl 0) (Takes.nil cs).boundary (.inl (.nil cs))

end Cursor

/-! ### Steps -/

/-- The trees that have been read before a cursor lie behind `lo`; or none has, and no token since. -/
def Reached (cs : List Char) (begun : Bool) (lo : Nat) (ts : List Tree) (c : Cursor) : Prop :=
  AllLie cs lo c.last ts ∨ begun = false ∧ ts = [] ∧ lo ≤ c.start

/-- The step takes the trees `ts` that have been read from the byte `lo` on to trees of its result. Whether a token
has been read is `begun` before it and `done` after it. -/
structure Lays {α : Type} (cs : List Char) (lo : Nat) (begun done : Bool) (ts : List Tree) (f : α → List Tree)
    (m : Reading α) : Prop where
  run : ∀ {c a d}, c.On cs → Reached cs begun lo ts c → m.run c = some (a, d) →
    d.On cs ∧ c.last ≤ d.last ∧ Reached cs done lo (f a) d

/-- The step gives trees that lie where it reads; if it `needs` a token, it reads one. -/
class Yields {α : Type} (cs : List Char) (needs : outParam Bool) (f : outParam (α → List Tree)) (m : Reading α) :
    Prop where
  lays : ∀ {lo}, Lays cs lo false needs [] f m

/-- The step gives no trees. -/
class Moves {α : Type} (cs : List Char) (needs : outParam Bool) (m : Reading α) : Prop where
  lays : ∀ {lo}, Lays cs lo false needs [] (fun _ => []) m

variable {α β : Type} {begun done needs needs' : Bool} {f : α → List Tree} {g : β → List Tree} {m m' : Reading α}
  {k : α → Reading β} {a : α} {c d : Cursor}

theorem Reached.weaken {weaker : Bool} (h : Reached cs begun lo ts c) (hb : weaker = true → begun = true) :
    Reached cs weaker lo ts c :=
  h.imp_right fun h => ⟨Bool.eq_false_iff.2 fun hw => absurd (hb hw) (Bool.eq_false_iff.1 h.1), h.2⟩

theorem Reached.mono {lo' : Nat} (h : Reached cs begun lo ts c) (hlo : lo' ≤ lo) : Reached cs begun lo' ts c :=
  h.imp (fun h => h.mono hlo (Nat.le_refl _)) fun ⟨hbegun, hts, h⟩ => ⟨hbegun, hts, Nat.le_trans hlo h⟩

theorem Reached.le (hc : c.On cs) (h : Reached cs begun lo ts c) : lo ≤ c.start :=
  h.elim (fun h => Nat.le_trans h.le hc.last_le) fun h => h.2.2

theorem Reached.append (h : Reached cs begun lo ts c) (hc : c.On cs) (hle : c.last ≤ d.last)
    (h' : Reached cs needs c.start us d) : Reached cs (begun || needs) lo (ts ++ us) d := by
  rcases h with h | ⟨rfl, rfl, h⟩ <;> rcases h' with h' | ⟨rfl, rfl, h'⟩
  · exact .inl (h.append (h'.mono hc.last_le (Nat.le_refl _)))
  · rw [List.append_nil]
    exact .inl (h.mono (Nat.le_refl lo) hle)
  · exact .inl (h'.mono h (Nat.le_refl _))
  · exact .inr ⟨rfl, rfl, Nat.le_trans h h'⟩

namespace Lays

/-- What has been read before a step stays where it is. -/
theorem frame (h : ∀ lo, Lays cs lo false needs [] f m) : Lays cs lo begun (begun || needs) ts (fun a => ts ++ f a) m := by
  refine ⟨fun hc hts hrun => ?_⟩
  obtain ⟨hd, hle, hus⟩ := (h _).run hc (.inr ⟨rfl, rfl, Nat.le_refl _⟩) hrun
  exact ⟨hd, hle, hts.append hc hle hus⟩

protected theorem bind {between : Bool} (h : Lays cs lo begun between ts f m)
    (hk : ∀ a, Lays cs lo between done (f a) g (k a)) : Lays cs lo begun done ts g (m >>= k) := by
  refine ⟨fun hc hts hrun => ?_⟩
  obtain ⟨a, c₁, h₁, h₂⟩ := Agrees.run_bind hrun
  obtain ⟨hc₁, hle₁, hfa⟩ := h.run hc hts h₁
  obtain ⟨hd, hle₂, hgb⟩ := (hk a).run hc₁ hfa h₂
  exact ⟨hd, Nat.le_trans hle₁ hle₂, hgb⟩

/-- A step that gives trees, behind others. -/
theorem read [h : Yields cs needs f m] (hk : ∀ a, Lays cs lo (begun || needs) done (ts ++ f a) g (k a)) :
    Lays cs lo begun done ts g (m >>= k) :=
  (frame fun _ => h.lays).bind hk

theorem skip [h : Moves cs needs m] (hk : ∀ a, Lays cs lo (begun || needs) done ts g (k a)) :
    Lays cs lo begun done ts g (m >>= k) :=
  (frame fun _ => h.lays).bind fun a => by
    rw [List.append_nil]
    exact hk a

/-- What begins at the current token lies behind it. -/
theorem here {k : Nat → Reading α} (hk : ∀ {start}, Boundary cs start → Lays cs start false done [] f (k start)) :
    Lays cs lo false done [] f (here >>= k) := by
  refine ⟨fun hc hts hrun => ?_⟩
  rw [StateT.run_bind, run_here] at hrun
  obtain ⟨hd, hle, hfa⟩ := (hk hc.start).run hc (.inr ⟨rfl, rfl, Nat.le_refl _⟩) hrun
  exact ⟨hd, hle, hfa.mono (hts.le hc)⟩

/-- A node of all that has been read from a byte on, whatever it is. -/
theorem nodeFrom (hlo : Boundary cs lo) (label : Label) :
    Lays cs lo true true ts List.singleton (Reading.node lo label ts) := by
  refine ⟨fun hc hts hrun => ?_⟩
  obtain ⟨rfl, rfl⟩ := Prod.mk.inj (Option.some.inj hrun)
  rcases hts with hts | ⟨hfalse, -⟩
  · exact ⟨hc, Nat.le_refl _, .inl (allLie_singleton.2 (hts.lies_node hlo hc.last))⟩
  · cases hfalse

theorem node (start : Nat) (label : Label) (hl : label ≠ .expressionStatement := by nofun) :
    Lays cs lo true true ts List.singleton (Reading.node start label ts) := by
  refine ⟨fun hc hts hrun => ?_⟩
  obtain ⟨rfl, rfl⟩ := Prod.mk.inj (Option.some.inj hrun)
  rcases hts with hts | ⟨hfalse, -⟩
  · exact ⟨hc, Nat.le_refl _, .inl (allLie_singleton.2 (Tree.lies_node hl hts))⟩
  · cases hfalse

/-- A node of the last trees. -/
theorem nodeOf {k : Tree → Reading β} (start : Nat) (label : Label)
    (hk : ∀ t, Lays cs lo true done (ts ++ [t]) g (k t)) (hl : label ≠ .expressionStatement := by nofun) :
    Lays cs lo true done (ts ++ us) g (Reading.node start label us >>= k) := by
  refine ⟨fun hc htus hrun => ?_⟩
  obtain ⟨t, c₁, hnode, hrun⟩ := Agrees.run_bind hrun
  obtain ⟨rfl, rfl⟩ := Prod.mk.inj (Option.some.inj hnode)
  rcases htus with htus | ⟨hfalse, -⟩
  · exact (hk _).run hc (.inl (htus.nodeOf hl)) hrun
  · cases hfalse

protected theorem pure (h : f a = ts) (hb : done = true → begun = true := by simp) :
    Lays cs lo begun done ts f (pure a) := by
  refine ⟨fun hc hts hrun => ?_⟩
  obtain ⟨rfl, rfl⟩ := Prod.mk.inj (Option.some.inj hrun)
  exact ⟨hc, Nat.le_refl _, h ▸ hts.weaken hb⟩

/-- What is given at once. -/
theorem give (hk : Lays cs lo begun done us g (k a)) (h : us = ts := by simp [List.singleton]) :
    Lays cs lo begun done ts g (pure a >>= k) := by
  rw [pure_bind, ← h]
  exact hk

protected theorem failure : Lays cs lo begun done ts f (failure : Reading α) :=
  ⟨fun _ _ hrun => by cases hrun⟩

theorem ite {p : Prop} [Decidable p] {x y : Reading α} (hx : Lays cs lo begun done ts f x)
    (hy : Lays cs lo begun done ts f y) : Lays cs lo begun done ts f (if p then x else y) := by
  split
  · exact hx
  · exact hy

theorem weaken {weaker : Bool} (h : Lays cs lo begun done ts f m) (hb : weaker = true → done = true) :
    Lays cs lo begun weaker ts f m := by
  refine ⟨fun hc hts hrun => ?_⟩
  obtain ⟨hd, hle, hfa⟩ := h.run hc hts hrun
  exact ⟨hd, hle, hfa.weaken hb⟩

/-- Nothing is lost if a token has been read before. -/
theorem unbegun (h : Lays cs lo false done ts f m) : Lays cs lo begun done ts f m :=
  ⟨fun hc hts hrun => h.run hc (hts.weaken nofun) hrun⟩

/-- Other trees in place of those that have been read. -/
theorem change (hus : ∀ lo hi, AllLie cs lo hi ts → AllLie cs lo hi us) (h : Lays cs lo true done us f m) :
    Lays cs lo true done ts f m :=
  ⟨fun hc hts hrun => h.run hc (hts.imp (hus _ _) fun h => absurd h.1.symm Bool.false_ne_true) hrun⟩

/-- Another tree in place of one that has been read. -/
theorem changeTree {u : Tree} (hu : ∀ {lo hi}, t.Lies cs lo hi → u.Lies cs lo hi)
    (h : Lays cs lo true done [u] f m) : Lays cs lo true done [t] f m := by
  have hchange (lo hi : Nat) (ht : AllLie cs lo hi [t]) : AllLie cs lo hi [u] :=
    allLie_singleton.2 (hu (allLie_singleton.1 ht))
  exact change hchange h

/-- A node without what has been read before it. -/
theorem forget (h : Lays cs lo true done [] f m) : Lays cs lo true done ts f m := by
  have hnil (lo hi : Nat) (hts : AllLie cs lo hi ts) : AllLie cs lo hi [] := hts.le
  exact change hnil h

/-! ### Repetitions -/

theorem repeatUpTo {step : α → Reading (Option α)}
    (h : ∀ a, Lays cs lo begun begun (f a) (fun o => f (o.getD a)) (step a)) (n : Nat) (a : α) :
    Lays cs lo begun begun (f a) f (Reading.repeatUpTo step n a) := by
  induction n generalizing a with
  | zero => exact .failure
  | succ n ih =>
    refine .bind (h a) fun o => ?_
    cases o with
    | none => exact .pure rfl
    | some b => exact ih b

theorem iterate {step : α → Reading (Option α)}
    (h : ∀ a, Lays cs lo begun begun (f a) (fun o => f (o.getD a)) (step a)) (a : α) :
    Lays cs lo begun begun (f a) f (Reading.iterate step a) :=
  ⟨fun hc hts hrun => (repeatUpTo h _ a).run hc hts hrun⟩

/-- A repetition that needs a token in its first round. -/
theorem iterate_needs {step : α → Reading (Option α)}
    (hfirst : Lays cs lo begun true (f a) (fun o => f (o.getD a)) (step a))
    (h : ∀ a, Lays cs lo true true (f a) (fun o => f (o.getD a)) (step a)) :
    Lays cs lo begun true (f a) f (Reading.iterate step a) := by
  have hround (n : Nat) : Lays cs lo begun true (f a) f (Reading.repeatUpTo step (n + 1) a) := by
    refine .bind hfirst fun o => ?_
    cases o with
    | none => exact .pure rfl
    | some b => exact repeatUpTo h n b
  exact ⟨fun hc hts hrun => (hround _).run hc hts hrun⟩

end Lays

/-! ### Steps without trees -/

theorem Cursor.On.last_le_next (h : c.On cs) : c.last ≤ c.next.last := by
  rw [Cursor.last_next]
  exact Nat.le_trans h.last_le h.start_le

theorem Reached.next (h : Reached cs begun lo ts c) (hc : c.On cs) : Reached cs true lo ts c.next := by
  rcases h with h | ⟨-, rfl, h⟩
  · exact .inl (h.mono (Nat.le_refl lo) hc.last_le_next)
  · refine .inl ?_
    rw [Cursor.last_next]
    exact Nat.le_trans h hc.start_le

instance moves_pure (a : α) : Moves cs false (pure a : Reading α) :=
  ⟨.pure rfl⟩

instance moves_failure : Moves cs true (failure : Reading α) :=
  ⟨.failure⟩

instance moves_bind [h : Moves cs needs m] [hk : ∀ a, Moves cs needs' (k a)] : Moves cs (needs || needs') (m >>= k) :=
  ⟨h.lays.bind fun a => .frame fun _ => (hk a).lays⟩

instance moves_ite {p : Prop} [Decidable p] {x y : Reading α} [hx : Moves cs needs x] [hy : Moves cs needs' y] :
    Moves cs (needs && needs') (if p then x else y) :=
  ⟨.ite (hx.lays.weaken fun h => (Bool.and_eq_true_iff.1 h).1) (hy.lays.weaken fun h => (Bool.and_eq_true_iff.1 h).2)⟩

instance moves_guard (p : Prop) [Decidable p] : Moves cs false (guard p : Reading Unit) := by
  unfold guard
  infer_instance

instance moves_get : Moves cs false (get : Reading Cursor) := by
  refine ⟨⟨fun hc hts hrun => ?_⟩⟩
  obtain ⟨rfl, rfl⟩ := Prod.mk.inj (Option.some.inj hrun)
  exact ⟨hc, Nat.le_refl _, hts⟩

instance moves_advance : Moves cs true advance := by
  refine ⟨⟨fun hc hts hrun => ?_⟩⟩
  obtain ⟨-, rfl⟩ := Prod.mk.inj (Option.some.inj hrun)
  exact ⟨hc.next, hc.last_le_next, hts.next hc⟩

/-- Reading a token again as another one. -/
theorem moves_modify {change : Cursor → Cursor} (h : ∀ {c : Cursor}, c.On cs → (change c).On cs)
    (hstart : ∀ c, (change c).last = c.last ∧ (change c).start = c.start) :
    Moves cs false (modify change : Reading Unit) := by
  refine ⟨⟨fun {c _ _} hc hts hrun => ?_⟩⟩
  obtain ⟨-, rfl⟩ := Prod.mk.inj (Option.some.inj hrun)
  obtain ⟨hlast, hstart⟩ := hstart c
  refine ⟨h hc, Nat.le_of_eq hlast.symm, ?_⟩
  rwa [Reached, hlast, hstart]

instance moves_asRegex : Moves cs false (modify Cursor.asRegex : Reading Unit) :=
  moves_modify Cursor.On.asRegex Cursor.last_asRegex

instance moves_asTemplate : Moves cs false (modify Cursor.asTemplate : Reading Unit) :=
  moves_modify Cursor.On.asTemplate Cursor.last_asTemplate

instance moves_token : Moves cs false token := by
  unfold Reading.token
  infer_instance

instance moves_here : Moves cs false here := by
  unfold Reading.here
  infer_instance

instance moves_onSameLine : Moves cs false onSameLine := by
  unfold Reading.onSameLine
  infer_instance

instance moves_sees (mark : String) : Moves cs false (sees mark) := by
  unfold Reading.sees
  infer_instance

instance moves_seesWord (word : String) : Moves cs false (seesWord word) := by
  unfold Reading.seesWord
  infer_instance

instance moves_seesWordBefore (word : String) (after : Cursor → Bool) : Moves cs false (seesWordBefore word after) := by
  unfold Reading.seesWordBefore
  infer_instance

instance moves_take (mark : String) : Moves cs false (take mark) := by
  unfold Reading.take
  infer_instance

instance moves_takeWord (word : String) : Moves cs false (takeWord word) := by
  unfold Reading.takeWord
  infer_instance

instance moves_takeWordBefore (word : String) (after : Cursor → Bool) : Moves cs false (takeWordBefore word after) := by
  unfold Reading.takeWordBefore
  infer_instance

/-- What has to be taken is a token. -/
theorem moves_of_run {m : Reading Unit} (h : ∀ {c u d}, m.run c = some (u, d) → d = c.next) : Moves cs true m := by
  refine ⟨⟨fun hc hts hrun => ?_⟩⟩
  obtain rfl := h hrun
  exact ⟨hc.next, hc.last_le_next, hts.next hc⟩

instance moves_expect (mark : String) : Moves cs true (expect mark) := by
  refine moves_of_run fun {c u d} hrun => ?_
  rw [Reading.expect, StateT.run_bind, run_take] at hrun
  split at hrun
  · exact (Prod.mk.inj (Option.some.inj hrun)).2.symm
  · cases hrun

instance moves_expectWord (word : String) : Moves cs true (expectWord word) := by
  refine moves_of_run fun {c u d} hrun => ?_
  rw [Reading.expectWord, StateT.run_bind, run_takeWord] at hrun
  split at hrun
  · exact (Prod.mk.inj (Option.some.inj hrun)).2.symm
  · cases hrun

instance moves_semicolon : Moves cs false semicolon := by
  unfold Reading.semicolon
  infer_instance

/-- A keyword that is there has been read. -/
theorem Lays.takeWord {word : String} {k : Bool → Reading β} (hyes : Lays cs lo true done ts g (k true))
    (hno : Lays cs lo begun done ts g (k false)) : Lays cs lo begun done ts g (takeWord word >>= k) := by
  refine ⟨fun {c _ _} hc hts hrun => ?_⟩
  rw [StateT.run_bind, run_takeWord] at hrun
  split at hrun
  · obtain ⟨hd, hle, hgb⟩ := hyes.run hc.next (hts.next hc) hrun
    exact ⟨hd, Nat.le_trans hc.last_le_next hle, hgb⟩
  · exact hno.run hc hts hrun

/-! ### Lists of trees -/

instance yields_leaf (label : Label) : Yields cs true List.singleton (leaf label) :=
  ⟨.here fun hstart => .skip fun _ => .nodeFrom hstart label⟩

instance yields_itemsTo (close : String) {item : Reading Tree} [h : Yields cs true List.singleton item] :
    Yields cs false id (itemsTo close item) := by
  refine ⟨.bind (.iterate (f := List.reverse) (fun items => ?_) []) fun items => .pure rfl⟩
  exact .skip fun _ => .ite (.pure rfl) (.read fun t => .pure List.reverse_cons)

instance yields_separated (close : String) {item : Reading Tree} [h : Yields cs true List.singleton item] :
    Yields cs false Prod.fst (separated close item) := by
  refine ⟨.bind (.iterate (f := fun state => state.1.reverse) ?_ ([], false, false)) fun _ => .pure rfl⟩
  rintro ⟨items, trailing, done⟩
  refine .ite (.pure rfl) (.skip fun _ => .ite (.pure rfl) (.skip fun _ => .read fun t => .skip fun _ => .pure ?_))
  exact List.reverse_cons

end Relabel.Script
