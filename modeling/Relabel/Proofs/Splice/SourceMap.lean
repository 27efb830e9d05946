import Relabel.Proofs.SourceMap.Coding
import Relabel.Proofs.SourceMap.Edit
import Relabel.Proofs.Splice.Offsets
import Relabel.Proofs.Splice.Reference

/-!
# Splicing a text with its source map

The map is followed by byte offsets. The invariant of a splice (`Tracks`) says that the mappings hold
exactly the segments of a relation between byte offsets of the text and origins; one edit moves the
relation along (`Tracks.applyTo`), and so does a whole run (`Tracks.applied`).
-/

namespace Relabel
open Text

namespace Mappings

/-- Every segment stands at the position of a boundary of the text. -/
def PlacedIn (m : Mappings) (cs : List Char) : Prop :=
  ∀ i s, m.At i s → ∃ o, Boundary cs o ∧
    (Position.ofOffset cs o).line.toNat = i ∧ (Position.ofOffset cs o).column = s.column

/-- A segment with the origin `og` stands at the byte offset `o` of the text. -/
def Marks (m : Mappings) (cs : List Char) (o : Nat) (og : Option Origin) : Prop :=
  Boundary cs o ∧
    m.At (Position.ofOffset cs o).line.toNat ⟨(Position.ofOffset cs o).column, og⟩

end Mappings

namespace Edit
open Mappings
variable {cs : List Char} {e : Edit} {edits es : List Edit} {o o' p : Nat} {m : Mappings}
  {marks : Nat → Option Origin → Prop} {og : Option Origin}

/-! ### One offset -/

theorem applyTo_append₃ {a b d : List Char} (ha : size a = e.span.start)
    (hb : size a + size b = e.span.stop) :
    e.applyTo (a ++ b ++ d) = a ++ e.text.toList ++ d := by
  rw [applyTo, ← ha, ← hb, ← size_append, after_append, List.append_assoc a b d, before_append]

/-- A boundary is moved to a boundary, and its position is moved with it. -/
theorem shift?_ofOffset (hcs : size cs < 2 ^ 32) (he : Fits cs e) (ho : Boundary cs o) :
    shift? (Position.ofOffset cs e.span.start) (Position.ofOffset cs e.span.stop)
        ((Position.ofOffset cs e.span.start).advance e.text.toList) (Position.ofOffset cs o) =
      (e.move? o).map (Position.ofOffset (e.applyTo cs)) ∧
    ∀ p, e.move? o = some p → Boundary (e.applyTo cs) p := by
  rcases Nat.lt_or_ge e.span.start o with hs | hs
  · -- behind the start: what the edit replaces is gone, what follows it moves
    rcases Nat.lt_or_ge o e.span.stop with hlt | hge
    · have hnone : e.move? o = none := by rw [move?, if_neg (by omega), if_pos hlt]
      rw [hnone, shift?, if_neg (mt (Position.ofOffset_le_iff hcs ho he.start).1 (by omega)),
        if_pos (Position.ofOffset_lt hcs ho he.stop hlt)]
      refine ⟨rfl, fun p hp => ?_⟩
      cases hp
    · obtain ⟨u, c, d, rfl, hu, hc⟩ := he.stop.exists_append₃ ho hge
      have hstart : Boundary u e.span.start := by
        refine Boundary.of_append (b := c ++ d) ?_ (by rw [hu]; exact he.le)
        rw [← List.append_assoc]
        exact he.start
      obtain ⟨a, b, rfl, ha⟩ := hstart
      have hsmall : size (a ++ b ++ c) < 2 ^ 32 := by
        rw [size_append] at hcs
        omega
      have hmove : e.move? o = some (size (a ++ e.text.toList ++ c)) := by
        rw [move?_of_stop_le hs hge, Option.some.injEq]
        simp only [size_append] at hu hc ⊢
        omega
      have hnew : e.applyTo (a ++ b ++ c ++ d) = a ++ e.text.toList ++ c ++ d := by
        rw [List.append_assoc (a ++ b), applyTo_append₃ ha (by rwa [size_append] at hu)]
        exact (List.append_assoc ..).symm
      have hA : Position.ofOffset (a ++ b ++ c ++ d) e.span.start = Position.ofText a := by
        rw [← ha, List.append_assoc, List.append_assoc, Position.ofOffset_append]
      have hB : Position.ofOffset (a ++ b ++ c ++ d) e.span.stop = Position.ofText (a ++ b) := by
        rw [← hu, List.append_assoc, Position.ofOffset_append]
      have hC : Position.ofOffset (a ++ b ++ c ++ d) o = Position.ofText (a ++ b ++ c) := by
        rw [← hc, ← size_append, Position.ofOffset_append]
      have hbc : b ++ c ≠ [] := by
        rintro h
        obtain ⟨rfl, rfl⟩ := List.append_eq_nil_iff.1 h
        simp only [size_append, size_nil] at hu hc
        omega
      rw [hmove, hnew, hA, hB, hC, shift?_ofText hsmall hbc, Option.map_some,
        Position.ofOffset_append]
      refine ⟨rfl, fun p hp => ?_⟩
      obtain rfl := Option.some.inj hp
      exact (Boundary.size _).append_right d
  · -- up to the start nothing changes
    have hb : Boundary (before e.span.start cs) o := he.start.of_before ho hs
    have hnew : e.applyTo cs = before e.span.start cs ++ (e.text.toList ++ after e.span.stop cs) := by
      rw [applyTo, List.append_assoc]
    have hsame : Position.ofOffset (e.applyTo cs) o = Position.ofOffset cs o := by
      rw [Position.ofOffset, Position.ofOffset, hnew, before_append_of_boundary hb,
        before_before ho he.start hs]
    rw [move?, if_pos hs, shift?, if_pos (Position.ofOffset_le hcs ho he.start hs), Option.map_some,
      hsame]
    refine ⟨rfl, fun p hp => ?_⟩
    obtain rfl := Option.some.inj hp
    rw [hnew]
    exact hb.append_right _

/-! ### Marks that are carried along -/

/-- Marks at new byte offsets. Of several that come to one offset the first stays. -/
def Carried (move : Nat → Option Nat) (marks : Nat → Option Origin → Prop) (p : Nat)
    (og : Option Origin) : Prop :=
  ∃ o, marks o og ∧ move o = some p ∧ ∀ o' og', marks o' og' → move o' = some p → o ≤ o'

theorem carried_some : Carried some marks p og ↔ marks p og := by
  constructor
  · rintro ⟨o, ho, hp, -⟩
    rwa [← Option.some.inj hp]
  · intro h
    exact ⟨p, h, rfl, fun o' _ _ ho' => (Option.some.inj ho').ge⟩

theorem exists_carried {move : Nat → Option Nat} (h : marks o og) (hp : move o = some p) :
    ∃ og', Carried move marks p og' := by
  classical
  have hex : ∃ o, (∃ og, marks o og) ∧ move o = some p := ⟨o, ⟨og, h⟩, hp⟩
  obtain ⟨⟨og', hm⟩, hf⟩ := Nat.find_spec hex
  exact ⟨og', Nat.find hex, hm, hf, fun o' og'' h' hp' => Nat.find_min' hex ⟨⟨og'', h'⟩, hp'⟩⟩

/-- Carrying along twice, by moves that keep the order. -/
theorem carried_bind {f g : Nat → Option Nat}
    (hf : ∀ {o o' a a'}, o ≤ o' → f o = some a → f o' = some a' → a ≤ a') :
    Carried g (Carried f marks) p og ↔ Carried (fun o => (f o).bind g) marks p og := by
  constructor
  · rintro ⟨a, ⟨o, ho, ha, hfirst⟩, hp, hleast⟩
    refine ⟨o, ho, Option.bind_eq_some_iff.2 ⟨a, ha, hp⟩, fun o' og' ho' hp' => ?_⟩
    obtain ⟨a', ha', hp'⟩ := Option.bind_eq_some_iff.1 hp'
    obtain ⟨og'', hcar⟩ := exists_carried ho' ha'
    have hle := hleast a' og'' hcar hp'
    by_contra hlt
    obtain rfl : a = a' := Nat.le_antisymm hle (hf (by omega) ha' ha)
    exact hlt (hfirst o' og' ho' ha')
  · rintro ⟨o, ho, hp, hfirst⟩
    obtain ⟨a, ha, hp⟩ := Option.bind_eq_some_iff.1 hp
    have hbind : ∀ o' a', f o' = some a' → g a' = some p → (f o').bind g = some p :=
      fun o' a' h hg => by rw [h]; exact hg
    refine ⟨a, ⟨o, ho, ha, fun o' og' ho' ha' => ?_⟩, hp, ?_⟩
    · exact hfirst o' og' ho' (hbind o' a ha' hp)
    · rintro a' og' ⟨o', ho', ha', -⟩ hp'
      exact hf (hfirst o' og' ho' (hbind o' a' ha' hp')) ha ha'

/-! ### The run -/

/-- The mappings hold exactly the segments that `marks` says, at the positions of byte offsets. -/
structure Tracks (m : Mappings) (cs : List Char) (marks : Nat → Option Origin → Prop) : Prop where
  increasing : m.Increasing
  lines : m.lines ≠ []
  boundary : ∀ o og, marks o og → Boundary cs o
  at_iff : ∀ i s, m.At i s ↔ ∃ o, marks o s.origin ∧
    (Position.ofOffset cs o).line.toNat = i ∧ (Position.ofOffset cs o).column = s.column

/-- One edit moves the segments along with the text. -/
theorem Tracks.applyTo (h : Tracks m cs marks) (he : Fits cs e) (hcs : size cs < 2 ^ 32)
    (hnew : size (e.applyTo cs) < 2 ^ 32) :
    Tracks (e.applyToMappings cs m) (e.applyTo cs) (Carried e.move? marks) := by
  have hboundary : ∀ p og, Carried e.move? marks p og → Boundary (e.applyTo cs) p := by
    rintro p og ⟨o, ho, hp, -⟩
    exact (shift?_ofOffset hcs he (h.boundary o og ho)).2 p hp
  have hw : ∀ i s, m.At i s → i < 2 ^ 32 := by
    intro i s hs
    obtain ⟨o, -, rfl, -⟩ := (h.at_iff i s).1 hs
    exact UInt32.toNat_lt _
  have hpos : ∀ o, Position.mk (.ofNat (Position.ofOffset cs o).line.toNat)
      (Position.ofOffset cs o).column = Position.ofOffset cs o := fun o => by
    rw [UInt32.ofNat_toNat]
  refine ⟨increasing_applyEdit m _ _ _, applyEdit_lines_ne_nil h.lines, hboundary, fun i s => ?_⟩
  constructor
  · -- a segment that is left stands at the first mark that lands there
    intro hs
    obtain ⟨q, rfl, hq⟩ := exists_of_at_applyEdit hs
    rw [hq] at hs
    obtain ⟨j, c, hj, hshift, hleast⟩ := (at_applyEdit h.increasing hw).1 hs
    obtain ⟨o, ho, rfl, rfl⟩ := (h.at_iff j _).1 hj
    rw [hpos, (shift?_ofOffset hcs he (h.boundary o _ ho)).1, Option.map_eq_some_iff] at hshift
    obtain ⟨p, hp, rfl⟩ := hshift
    refine ⟨p, ⟨o, ho, hp, fun o' og' ho' hp' => ?_⟩, rfl, by rw [hq]⟩
    have hb' := h.boundary o' og' ho'
    have hle := hleast _ ⟨_, og'⟩ ((h.at_iff _ _).2 ⟨o', ho', rfl, rfl⟩) (by
      rw [hpos, (shift?_ofOffset hcs he hb').1, hp']
      rfl)
    rw [hpos, hpos] at hle
    exact (Position.ofOffset_le_iff hcs (h.boundary o _ ho) hb').1 hle
  · rintro ⟨p, ⟨o, ho, hp, hfirst⟩, rfl, hcol⟩
    obtain ⟨c, og⟩ := s
    obtain rfl := hcol
    have hb := h.boundary o og ho
    have hpb := (shift?_ofOffset hcs he hb).2 p hp
    refine (at_applyEdit h.increasing hw).2
      ⟨_, (Position.ofOffset cs o).column, (h.at_iff _ _).2 ⟨o, ho, rfl, rfl⟩, ?_, ?_⟩
    · rw [hpos, (shift?_ofOffset hcs he hb).1, hp]
      rfl
    · intro j' t ht hshift
      obtain ⟨o', ho', rfl, hc'⟩ := (h.at_iff _ _).1 ht
      have hb' := h.boundary o' _ ho'
      rw [← hc', hpos, (shift?_ofOffset hcs he hb').1, Option.map_eq_some_iff] at hshift
      obtain ⟨p', hp', heq⟩ := hshift
      rw [Position.ofOffset_inj hnew ((shift?_ofOffset hcs he hb').2 p' hp') hpb] at heq
      rw [← hc', hpos, hpos]
      exact Position.ofOffset_le hcs hb hb' (hfirst o' _ ho' (by rw [hp', heq]))

/-- The mappings after some edits of the text, one after another. -/
def appliedMappings : List Edit → List Char → Mappings → Mappings
  | [], _, m => m
  | e :: es, cs, m => appliedMappings es (e.applyTo cs) (e.applyToMappings cs m)

theorem applyAll_some (es : List Edit) (cs : List Char) (m : Mappings) :
    Mapped.applyAll es (cs, some m) = (applied es cs, some (appliedMappings es cs m)) := by
  induction es generalizing cs m with
  | nil => rfl
  | cons e es ih => exact ih _ _

/-- The text and all texts on the way to the last have less than 2 ^ 32 bytes. -/
def SmallInTurn : List Edit → List Char → Prop
  | [], cs => size cs < 2 ^ 32
  | e :: es, cs => size cs < 2 ^ 32 ∧ SmallInTurn es (e.applyTo cs)

theorem SmallInTurn.head (h : SmallInTurn es cs) : size cs < 2 ^ 32 := by
  cases es with
  | nil => exact h
  | cons e es => exact h.1

/-- All edits move the segments along with the text. -/
theorem Tracks.applied (h : Tracks m cs marks) (hfit : FitInTurn es cs) (hsmall : SmallInTurn es cs) :
    Tracks (appliedMappings es cs m) (applied es cs) (Carried (moved? es) marks) := by
  induction es generalizing cs m marks with
  | nil =>
    have heq : Carried (moved? []) marks = marks := by
      funext p og
      exact propext carried_some
    rw [heq]
    exact h
  | cons e es ih =>
    obtain ⟨he, hfit⟩ := hfit
    have hrun := ih (h.applyTo he hsmall.1 hsmall.2.head) hfit hsmall.2
    have heq : Carried (moved? es) (Carried e.move? marks) = Carried (moved? (e :: es)) marks := by
      funext p og
      exact propext (carried_bind fun hle ha ha' => move?_mono hle ha ha')
    rwa [heq] at hrun

/-! ### What a splice says of the map -/

/-- No text inserted before the byte offset `o` is held back from it. -/
def NothingHeld (edits : List Edit) (o : Nat) : Prop :=
  ∀ e ∈ edits, e.span.start < o → HeldBack edits o e → e.text = ""

/-- The byte offset `o` is moved to `p` by all that is gained up to it. -/
def Shifted (edits : List Edit) (o p : Nat) : Prop :=
  ¬ Inside edits o ∧ (p : Int) = o + gained edits o

/-- Of the segments of `m` in the text `old`, `m'` holds in the text `new` exactly those that land
somewhere: of several that land on one offset the first, each with its origin. -/
structure Follows (m : Mappings) (old : List Char) (lands : Nat → Nat → Prop) (m' : Mappings)
    (new : List Char) : Prop where
  increasing : m'.Increasing
  at_iff : ∀ i s, m'.At i s ↔ ∃ o p, m.Marks old o s.origin ∧ lands o p ∧
    (∀ o' og, m.Marks old o' og → lands o' p → o ≤ o') ∧
    (Position.ofOffset new p).line.toNat = i ∧ (Position.ofOffset new p).column = s.column

theorem shifted_iff_nothingHeld (h : Lands edits o p) : Shifted edits o p ↔ NothingHeld edits o := by
  rw [NothingHeld, ← pushed_eq_gained, Shifted, h.2]
  exact ⟨fun hs => add_left_cancel hs.2, fun heq => ⟨h.1, by rw [heq]⟩⟩

theorem lands_iff_shifted (h : ¬ Inside edits o → NothingHeld edits o) :
    Lands edits o p ↔ Shifted edits o p := by
  refine and_congr_right fun hin => ?_
  rw [pushed_eq_gained.2 (h hin)]

theorem Follows.congr {old new : List Char} {m' : Mappings} {lands lands' : Nat → Nat → Prop}
    (h : Follows m old lands m' new)
    (heq : ∀ o og p, m.Marks old o og → (lands o p ↔ lands' o p)) : Follows m old lands' m' new := by
  refine ⟨h.increasing, fun i s => (h.at_iff i s).trans ?_⟩
  refine exists_congr fun o => exists_congr fun p => and_congr_right fun ho => ?_
  rw [heq o _ p ho]
  refine and_congr_right fun _ => and_congr_left' ?_
  refine forall_congr' fun o' => forall_congr' fun og => forall_congr' fun ho' => ?_
  rw [heq o' og p ho']

theorem tracks_of_placedIn (hinc : m.Increasing) (hlines : m.lines ≠ []) (h : m.PlacedIn cs) :
    Tracks m cs (m.Marks cs) := by
  refine ⟨hinc, hlines, fun o og ho => ho.1, fun i s => ⟨fun hs => ?_, ?_⟩⟩
  · obtain ⟨o, ho, rfl, hc⟩ := h i s hs
    refine ⟨o, ⟨ho, ?_⟩, rfl, hc⟩
    rw [hc]
    exact hs
  · rintro ⟨o, ho, rfl, hc⟩
    have := ho.2
    rwa [hc] at this

theorem Tracks.follows {new : List Char} {m' : Mappings}
    (h : Tracks m' new (Carried (moved? (ordered edits)) (m.Marks cs)))
    (hd : Descending (ordered edits)) (hle : ∀ e ∈ edits, e.span.start ≤ e.span.stop) :
    Follows m cs (Lands edits) m' new := by
  have hlands : ∀ o p, moved? (ordered edits) o = some p ↔ Lands edits o p := fun o p => by
    rw [moved?_eq_some_iff hd fun e he => hle e (mem_ordered.1 he), lands_ordered]
  refine ⟨h.increasing, fun i s => (h.at_iff i s).trans ?_⟩
  simp only [Carried, hlands]
  constructor
  · rintro ⟨p, ⟨o, ho, hp, hfirst⟩, hi, hc⟩
    exact ⟨o, p, ho, hp, hfirst, hi, hc⟩
  · rintro ⟨o, p, ho, hp, hfirst, hi, hc⟩
    exact ⟨p, ⟨o, ho, hp, hfirst⟩, hi, hc⟩

end Edit

namespace Mapped
open Edit

theorem exists_check_of_splice {document : String} {text out : Mapped} {edits : List Edit}
    (h : splice document text edits = .ok out) :
    ∃ es, check document text.content.toList edits = .ok es := by
  cases hc : check document text.content.toList edits with
  | error e => simp only [splice, hc, bind, Except.bind, reduceCtorEq] at h
  | ok es => exact ⟨es, rfl⟩

theorem splice_some_eq {document content : String} {map : SourceMap} {edits es : List Edit}
    {m : Mappings} (hes : check document content.toList edits = .ok es)
    (hm : Mappings.decode map.mappings = .ok m) :
    splice document ⟨content, some map⟩ edits =
      .ok ⟨.ofList (applied es content.toList),
        some { map with mappings := (appliedMappings es content.toList m).encode }⟩ := by
  simp only [splice, hes, hm, bind, Except.bind, pure, Except.pure, applyAll_some, Option.bind]

/-- The source map follows the text. After a splice its mappings are read back as the old segments
at the byte offsets where the edits bring them; nothing else of the map has changed. An offset is
shifted by all that is gained up to it exactly if no text inserted before it is held back. -/
theorem splice_map {document content : String} {map : SourceMap} {edits : List Edit} {m : Mappings}
    {out : Mapped} (hm : Mappings.decode map.mappings = .ok m) (hinc : m.Increasing)
    (hplaced : m.PlacedIn content.toList)
    (hsmall : SmallInTurn (ordered edits) content.toList)
    (hout : splice document ⟨content, some map⟩ edits = .ok out) :
    ∃ m', out.map = some { map with mappings := m'.encode } ∧
      Mappings.decode m'.encode = .ok m' ∧
      Follows m content.toList (Lands edits) m' out.content.toList ∧
      ((∀ o og, m.Marks content.toList o og → ¬ Inside edits o → NothingHeld edits o) →
        Follows m content.toList (Shifted edits) m' out.content.toList) ∧
      ∀ o p, Lands edits o p → (Shifted edits o p ↔ NothingHeld edits o) := by
  obtain ⟨es, hes⟩ := exists_check_of_splice hout
  rw [splice_some_eq hes hm] at hout
  obtain rfl := Except.ok.inj hout
  obtain ⟨rfl, hfit, hd⟩ := check_eq_ok hes
  have hlines := Mappings.lines_ne_nil_of_decode hm
  have hturn := (applied_eq_woven hd fun e he => hfit e (mem_ordered.1 he)).1
  have hrun := (tracks_of_placedIn hinc hlines hplaced).applied hturn hsmall
  have hfollows := hrun.follows hd fun e he => (hfit e he).le
  rw [String.toList_ofList]
  refine ⟨_, rfl, Mappings.decode_encode hrun.lines, hfollows, fun hheld => ?_, fun o p => ?_⟩
  · exact hfollows.congr fun o og p ho => lands_iff_shifted (hheld o og ho)
  · exact shifted_iff_nothingHeld

/-- The segment before the `d` of `abcd`, at the end of a deletion, is brought to the start of the
deletion and stays before the text that is inserted there. -/
theorem splice_map_heldBack :
    let edits : List Edit := [⟨⟨1, 3⟩, ""⟩, ⟨⟨1, 1⟩, "xy"⟩]
    let map : SourceMap := { version := 3, sources := ["a"], mappings := "GAAG" }
    ∃ out m', splice "d" ⟨"abcd", some map⟩ edits = .ok out ∧ out.content = "axyd" ∧
      out.map = some { map with mappings := m'.encode } ∧
      Mappings.decode m'.encode = .ok m' ∧ m'.At 0 ⟨1, some ⟨0, 0, 3, none⟩⟩ ∧
      ¬ Shifted edits 3 1 := by
  intro edits map
  let m : Mappings := ⟨[[⟨3, some ⟨0, 0, 3, none⟩⟩]]⟩
  have hord : ordered edits = edits := by
    rw [ordered, List.mergeSort_of_pairwise (by decide)]
    rfl
  have hes : check "d" "abcd".toList edits = .ok edits := by
    rw [check, hord]
    decide
  have hm : Mappings.decode map.mappings = .ok m := by decide
  have hinc : m.Increasing := by unfold Mappings.Increasing; decide
  have hmarks : m.Marks "abcd".toList 3 (some ⟨0, 0, 3, none⟩) :=
    ⟨⟨['a', 'b', 'c'], ['d'], by decide, by decide⟩, _, rfl, List.mem_singleton.2 rfl⟩
  have honly : ∀ i s, m.At i s → i = 0 ∧ s = ⟨3, some ⟨0, 0, 3, none⟩⟩ := by
    rintro i s ⟨segs, hi, hs⟩
    cases i with
    | zero =>
      obtain rfl := Option.some.inj hi
      exact ⟨rfl, List.mem_singleton.1 hs⟩
    | succ i => cases hi
  have hplaced : m.PlacedIn "abcd".toList := by
    intro i s hs
    obtain ⟨rfl, rfl⟩ := honly i s hs
    exact ⟨3, hmarks.1, rfl, rfl⟩
  have hsmall : SmallInTurn (ordered edits) "abcd".toList := by
    rw [hord]
    exact ⟨by decide, by decide, show size _ < 2 ^ 32 by decide⟩
  have hout := splice_some_eq hes hm
  have hcontent : applied edits "abcd".toList = "axyd".toList := by decide
  rw [hcontent] at hout
  obtain ⟨m', hmap, hdec, hfollows, -, hshift⟩ := splice_map hm hinc hplaced hsmall hout
  obtain ⟨-, hfit, hd⟩ := check_eq_ok hes
  have hlands : Lands edits 3 1 := (moved?_eq_some_iff hd fun e he => (hfit e he).le).1 rfl
  -- the only mark stands at column 3, so no earlier one lands on the same offset
  have hfirst : ∀ o og, m.Marks "abcd".toList o og → Lands edits o 1 → 3 ≤ o := by
    intro o og ho _
    by_contra hlt
    have hcol : (Position.ofOffset "abcd".toList o).column = 3 :=
      congrArg Segment.column (honly _ _ ho.2).2
    have : o = 0 ∨ o = 1 ∨ o = 2 := by omega
    rcases this with rfl | rfl | rfl <;> exact absurd hcol (by decide)
  refine ⟨_, m', hout, by decide, hmap, hdec, ?_, ?_⟩
  · simp only [String.toList_ofList] at hfollows
    exact (hfollows.at_iff 0 _).2 ⟨3, 1, hmarks, hlands, hfirst, by decide, by decide⟩
  · rw [hshift 3 1 hlands]
    intro hnothing
    have := hnothing ⟨⟨1, 1⟩, "xy"⟩ (by decide) (by decide) (by decide)
    exact absurd this (by decide)

end Mapped
end Relabel
