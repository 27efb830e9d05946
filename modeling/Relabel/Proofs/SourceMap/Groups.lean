import Relabel.Proofs.SourceMap.Vlq

/-!
# Digit groups and the integers that they spell

A segment is read group by group. A group of at most thirteen digits is read as its number modulo
`2 ^ 64` (`decodeFrom_group`), and thirteen digits of which each says that another one follows are
refused (`decodeFrom_run`). A group of thirteen digits spells up to 65 bits, so what is read is the
integer that the group spells only if the number is below `2 ^ 63` (`ofWord_eq_integer_iff`).
-/

namespace Relabel.Vlq
variable {word k d : Nat} {cs : List Char} {ds more run : List Nat} {gs : List (List Nat)}

/-- The number that digits spell: five bits each, the least first. -/
def number (ds : List Nat) : Nat :=
  Nat.ofDigits 32 (ds.map (· % 32))

/-- The integer that a number stands for: its lowest bit is the sign, the others are the magnitude. -/
def integer (n : Nat) : Int :=
  if n % 2 = 1 then -(n / 2 : Nat) else (n / 2 : Nat)

/-- The digits of one integer: each but the last says that another one follows. -/
def IsGroup (g : List Nat) : Prop :=
  ∃ more last, g = more ++ [last] ∧ (∀ d ∈ more, 32 ≤ d) ∧ last < 32

/-- The segment is written with these digits. -/
def WrittenIn (cs : List Char) (ds : List Nat) : Prop :=
  cs.map valueOf? = ds.map some

/-! ### Digits -/

theorem number_cons (d : Nat) (ds : List Nat) : number (d :: ds) = d % 32 + 32 * number ds := by
  rw [number, List.map_cons, Nat.ofDigits_cons, number]

theorem writtenIn_cons :
    WrittenIn cs (d :: ds) ↔ ∃ c cs', cs = c :: cs' ∧ valueOf? c = some d ∧ WrittenIn cs' ds := by
  rw [WrittenIn, List.map_cons, List.map_eq_cons_iff]
  rfl

theorem writtenIn_append (h : WrittenIn cs (ds ++ more)) :
    ∃ as bs, cs = as ++ bs ∧ WrittenIn as ds ∧ WrittenIn bs more := by
  rw [WrittenIn, List.map_append, List.map_eq_append_iff] at h
  exact h

/-- One step of reading. -/
theorem decodeFrom_cons {c : Char} (hc : valueOf? c = some d) (cs : List Char) :
    decodeFrom word (5 * k) (c :: cs) =
      if 32 ≤ d then
        if 12 ≤ k then .error .overflow
        else decodeFrom ((word + d % 32 * 2 ^ (5 * k)) % UInt64.size) (5 * (k + 1)) cs
      else (decodeFrom 0 0 cs).map (ofWord ((word + d % 32 * 2 ^ (5 * k)) % UInt64.size) :: ·) := by
  have hk : 60 < 5 * k + 5 ↔ 12 ≤ k := by omega
  rw [decodeFrom_of_value hc]
  simp only [Nat.shiftLeft_eq, hk, Nat.mul_add, Nat.mul_one]
  split
  · rfl
  · cases decodeFrom 0 0 cs <;> rfl

theorem add_mod_add_mul (word d n : Nat) (k : Nat) :
    ((word + d % 32 * 2 ^ (5 * k)) % UInt64.size + n * 2 ^ (5 * (k + 1))) % UInt64.size =
      (word + (d % 32 + 32 * n) * 2 ^ (5 * k)) % UInt64.size := by
  have hpow : 2 ^ (5 * (k + 1)) = 32 * 2 ^ (5 * k) := by
    rw [Nat.mul_add, Nat.pow_add, Nat.mul_comm]
  rw [Nat.mod_add_mod, hpow, Nat.add_mul, Nat.add_assoc]
  congr 3
  ring

/-- From the digit `k` on a group of at most thirteen digits adds its number, and reading goes on
behind it. Bits beyond the word are lost. -/
theorem decodeFrom_group {last : Nat} (h : WrittenIn cs (more ++ [last]))
    (hmore : ∀ d ∈ more, 32 ≤ d) (hlast : last < 32) (hk : k + more.length ≤ 12) (rest : List Char) :
    decodeFrom word (5 * k) (cs ++ rest) =
      (decodeFrom 0 0 rest).map
        (ofWord ((word + number (more ++ [last]) * 2 ^ (5 * k)) % UInt64.size) :: ·) := by
  induction more generalizing cs word k with
  | nil =>
    obtain ⟨c, cs', rfl, hc, hnil⟩ := writtenIn_cons.1 h
    obtain rfl := List.map_eq_nil_iff.1 hnil
    rw [List.cons_append, decodeFrom_cons hc, if_neg (by omega), List.nil_append, List.nil_append,
      number_cons]
    rfl
  | cons d more ih =>
    obtain ⟨c, cs', rfl, hc, hcs⟩ := writtenIn_cons.1 h
    rw [List.length_cons] at hk
    rw [List.cons_append, decodeFrom_cons hc, if_pos (hmore d (List.mem_cons_self ..)),
      if_neg (by omega), ih hcs (fun x hx => hmore x (List.mem_cons_of_mem d hx)) (by omega),
      List.cons_append, number_cons, add_mod_add_mul]

/-- Where a thirteenth digit says that another one follows, the segment is refused. -/
theorem decodeFrom_run (h : WrittenIn cs run) (hrun : ∀ d ∈ run, 32 ≤ d)
    (hk : k + run.length = 13) (hlt : k ≤ 12) (rest : List Char) : decodeFrom word (5 * k) (cs ++ rest) = .error .overflow := by
  induction run generalizing cs word k with
  | nil =>
    rw [List.length_nil] at hk
    omega
  | cons d run ih =>
    obtain ⟨c, cs', rfl, hc, hcs⟩ := writtenIn_cons.1 h
    rw [List.cons_append, decodeFrom_cons hc, if_pos (hrun d (List.mem_cons_self ..))]
    rw [List.length_cons] at hk
    split
    · rfl
    · exact ih hcs (fun x hx => hrun x (List.mem_cons_of_mem d hx)) (by omega) (by omega)

/-- Where the segment ends behind a digit that says that another one follows, it is truncated. -/
theorem decodeFrom_truncated (h : WrittenIn cs more) (hmore : ∀ d ∈ more, 32 ≤ d)
    (hk : k + more.length ≤ 12) (hpos : 0 < k + more.length) :
    decodeFrom word (5 * k) cs = .error .truncated := by
  induction more generalizing cs word k with
  | nil =>
    obtain rfl := List.map_eq_nil_iff.1 h
    rw [decodeFrom, if_neg (by simp only [List.length_nil] at hpos; omega)]
  | cons d more ih =>
    obtain ⟨c, cs', rfl, hc, hcs⟩ := writtenIn_cons.1 h
    rw [List.length_cons] at hk
    rw [decodeFrom_cons hc, if_pos (hmore d (List.mem_cons_self ..)), if_neg (by omega),
      ih hcs (fun x hx => hmore x (List.mem_cons_of_mem d hx)) (by omega) (by omega)]

/-! ### Segments -/

/-- The digits of a segment that is read: groups of at most thirteen. -/
def Grouped (gs : List (List Nat)) : Prop :=
  ∀ g ∈ gs, IsGroup g ∧ g.length ≤ 13

/-- What is read of a group. -/
def read (g : List Nat) : Int :=
  ofWord (number g % UInt64.size)

/-- What can stand behind the groups of at most thirteen digits. -/
inductive Tail : List Nat → Prop
  | nothing : Tail []
  | truncated {ds : List Nat} (h : ∀ d ∈ ds, 32 ≤ d) (hne : ds ≠ []) (hlen : ds.length ≤ 12) :
    Tail ds
  | run {run : List Nat} (h : ∀ d ∈ run, 32 ≤ d) (hlen : run.length = 13) (rest : List Nat) :
    Tail (run ++ rest)

/-- The digits up to the first one that says that no other one follows. -/
theorem exists_more (ds : List Nat) :
    ∃ more rest, ds = more ++ rest ∧ (∀ d ∈ more, 32 ≤ d) ∧ ∀ last ∈ rest.head?, last < 32 := by
  induction ds with
  | nil => exact ⟨[], [], rfl, by simp, by simp⟩
  | cons d ds ih =>
    by_cases hd : 32 ≤ d
    · obtain ⟨more, rest, rfl, hmore, hrest⟩ := ih
      exact ⟨d :: more, rest, rfl, List.forall_mem_cons.2 ⟨hd, hmore⟩, hrest⟩
    · exact ⟨[], d :: ds, rfl, by simp, by simpa using Nat.lt_of_not_le hd⟩

/-- Digits are groups of at most thirteen, as far as they go. -/
theorem exists_groups (ds : List Nat) :
    ∃ gs tail, ds = gs.flatten ++ tail ∧ Grouped gs ∧ Tail tail := by
  induction hn : ds.length using Nat.strongRecOn generalizing ds with
  | ind n ih =>
    obtain ⟨more, rest, rfl, hmore, hrest⟩ := exists_more ds
    by_cases hlen : more.length ≤ 12
    · cases rest with
      | nil =>
        rw [List.append_nil]
        by_cases hne : more = []
        · exact ⟨[], more, rfl, by simp [Grouped], hne ▸ .nothing⟩
        · exact ⟨[], more, rfl, by simp [Grouped], .truncated hmore hne hlen⟩
      | cons last rest =>
        -- a whole group: the digits behind it are fewer
        obtain ⟨gs, tail, rfl, hgs, htail⟩ :=
          ih rest.length (by rw [← hn, List.length_append, List.length_cons]; omega) rest rfl
        have hg : IsGroup (more ++ [last]) := ⟨more, last, rfl, hmore, hrest last rfl⟩
        have hle : (more ++ [last]).length ≤ 13 := by
          rw [List.length_append, List.length_singleton]
          omega
        exact ⟨(more ++ [last]) :: gs, tail, by simp, List.forall_mem_cons.2 ⟨⟨hg, hle⟩, hgs⟩, htail⟩
    · have htake : ∀ d ∈ more.take 13, 32 ≤ d := fun d hd => hmore d (List.mem_of_mem_take hd)
      have htail := Tail.run htake (by rw [List.length_take]; omega) (more.drop 13 ++ rest)
      rw [← List.append_assoc, List.take_append_drop] at htail
      exact ⟨[], more ++ rest, rfl, by simp [Grouped], htail⟩

/-- Groups of at most thirteen digits are read one by one, and reading goes on behind them. -/
theorem decode_append (hgs : Grouped gs) (h : WrittenIn cs gs.flatten) (rest : List Char) :
    decode (cs ++ rest) = (decode rest).map (gs.map read ++ ·) := by
  induction gs generalizing cs with
  | nil =>
    obtain rfl := List.map_eq_nil_iff.1 h
    cases hrest : decode rest <;> simp [hrest, Except.map]
  | cons g gs ih =>
    obtain ⟨⟨⟨more, last, rfl, hmore, hlast⟩, hlen⟩, hgs'⟩ := List.forall_mem_cons.1 hgs
    rw [List.length_append, List.length_singleton] at hlen
    obtain ⟨as, bs, rfl, has, hbs⟩ := writtenIn_append (List.flatten_cons ▸ h)
    have hgroup := @decodeFrom_group 0 0 as more last has hmore hlast (by omega) (bs ++ rest)
    rw [Nat.mul_zero, Nat.pow_zero, Nat.mul_one, Nat.zero_add] at hgroup
    rw [List.append_assoc, decode, hgroup, ← decode, ih hgs' hbs]
    cases decode rest <;> rfl

/-- Only where nothing stands behind the groups there are integers, and only a run of digits is too
long. -/
theorem decode_tail {ds : List Nat} (hds : Tail ds) (h : WrittenIn cs ds) :
    (ds = [] ∧ decode cs = .ok []) ∨ decode cs = .error .truncated ∨
      ((∃ run rest, ds = run ++ rest ∧ run.length = 13 ∧ ∀ d ∈ run, 32 ≤ d) ∧
        decode cs = .error .overflow) := by
  cases hds with
  | nothing =>
    obtain rfl := List.map_eq_nil_iff.1 h
    exact .inl ⟨rfl, rfl⟩
  | truncated hmore hne hlen =>
    exact .inr (.inl (decodeFrom_truncated (k := 0) h hmore (by omega)
      (by have := List.length_pos_iff.2 hne; omega)))
  | @run run hrun hlen rest =>
    obtain ⟨as, bs, rfl, has, -⟩ := writtenIn_append h
    exact .inr (.inr ⟨⟨run, rest, rfl, hlen, hrun⟩,
      decodeFrom_run (k := 0) has hrun (by omega) (by omega) bs⟩)

/-- A word holds the number of a group, up to its sign, exactly if the number is below `2 ^ 63`. -/
theorem ofWord_eq_integer_iff (n : Nat) : ofWord (n % UInt64.size) = integer n ↔ n < 2 ^ 63 := by
  have hdiv := Nat.div_add_mod n UInt64.size
  have hlt := Nat.mod_lt n (show 0 < UInt64.size by decide)
  have hpar : n % UInt64.size % 2 = n % 2 := Nat.mod_mod_of_dvd n (by decide)
  have hword : signed (n % UInt64.size) =
      if n % UInt64.size < 2 ^ 63 then ((n % UInt64.size : Nat) : Int)
      else ((n % UInt64.size : Nat) : Int) - 2 ^ 64 := by
    unfold signed
    rw [Int.bmod_def, Int.emod_eq_of_lt (by omega) (by omega)]
    unfold UInt64.size at *
    split <;> split <;> omega
  rw [ofWord, integer, hpar, hword]
  unfold UInt64.size at *
  split <;> split <;> omega

/-- A segment of base64 characters is read exactly if its digits are groups of at most thirteen. The
integers are then those that the groups spell, modulo the word: exactly the groups with a number
below `2 ^ 63` come out as they are. Too long is only a group whose thirteenth digit says that
another one follows. -/
theorem decode_iff (h : WrittenIn cs ds) :
    (∀ values, decode cs = .ok values ↔ ∃ gs, ds = gs.flatten ∧ Grouped gs ∧ values = gs.map read) ∧
      (∀ g, read g = integer (number g) ↔ number g < 2 ^ 63) ∧
      (decode cs = .error .overflow ↔
        ∃ gs run rest, ds = gs.flatten ++ run ++ rest ∧ Grouped gs ∧ run.length = 13 ∧
          ∀ d ∈ run, 32 ≤ d) := by
  refine ⟨fun values => ⟨fun hok => ?_, ?_⟩, fun g => ofWord_eq_integer_iff _, fun herror => ?_, ?_⟩
  · obtain ⟨gs, tail, rfl, hgs, htail⟩ := exists_groups ds
    obtain ⟨as, bs, rfl, has, hbs⟩ := writtenIn_append h
    rw [decode_append hgs has] at hok
    rcases decode_tail htail hbs with ⟨rfl, hread⟩ | hread | ⟨-, hread⟩
    · rw [hread] at hok
      cases hok
      exact ⟨gs, List.append_nil _, hgs, List.append_nil _⟩
    · rw [hread] at hok
      cases hok
    · rw [hread] at hok
      cases hok
  · rintro ⟨gs, rfl, hgs, rfl⟩
    rw [← List.append_nil cs, decode_append hgs h]
    exact congrArg Except.ok (List.append_nil _)
  · obtain ⟨gs, tail, rfl, hgs, htail⟩ := exists_groups ds
    obtain ⟨as, bs, rfl, has, hbs⟩ := writtenIn_append h
    rw [decode_append hgs has] at herror
    rcases decode_tail htail hbs with ⟨rfl, hread⟩ | hread | ⟨⟨run, rest, rfl, hlen, hrun⟩, -⟩
    · rw [hread] at herror
      cases herror
    · rw [hread] at herror
      cases herror
    · exact ⟨gs, run, rest, (List.append_assoc ..).symm, hgs, hlen, hrun⟩
  · rintro ⟨gs, run, rest, rfl, hgs, hlen, hrun⟩
    rw [List.append_assoc] at h
    obtain ⟨as, bs, rfl, has, hbs⟩ := writtenIn_append h
    obtain ⟨cs, rest', rfl, hcs, -⟩ := writtenIn_append hbs
    rw [decode_append hgs has, decode, decodeFrom_run (k := 0) hcs hrun (by omega) (by omega)]
    rfl

/-- Thirteen digits that are read, and not as the integer that they spell. -/
theorem decode_iff_thirteen :
    decode "ggggggggggggI".toList = .ok [-2 ^ 62] ∧ read (.replicate 12 32 ++ [8]) = -2 ^ 62 ∧
      read (.replicate 12 32 ++ [8]) ≠ integer (number (.replicate 12 32 ++ [8])) := by
  have hwritten : WrittenIn "ggggggggggggI".toList (.replicate 12 32 ++ [8]) := by
    rw [WrittenIn]
    decide
  have hgroup : IsGroup (.replicate 12 32 ++ [8]) := ⟨.replicate 12 32, 8, rfl, by decide, by decide⟩
  obtain ⟨hok, hexact, -⟩ := decode_iff hwritten
  refine ⟨(hok _).2 ⟨[.replicate 12 32 ++ [8]], rfl, ?_, by decide⟩, by decide, fun h => ?_⟩
  · exact List.forall_mem_singleton.2 ⟨hgroup, by decide⟩
  · exact absurd ((hexact _).1 h) (by decide)

end Relabel.Vlq
