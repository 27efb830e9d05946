import Relabel.Script.Literal

/-!
# Numbers

Decimal numbers with fraction and exponent, numbers of the bases two, eight and sixteen, numbers
with a leading zero, and big integers. Single underscores may separate digits. No name and no digit
may follow a number directly.
-/

namespace Relabel.Decimal

/-- The double nearest to `d · base + digit`. -/
def Double.push (base : Nat) (d : Double) (digit : Nat) : Double :=
  match d with
  | .infinite => .infinite
  | .finite m e =>
    let (num, den) := scale2 m 1 e
    ofRatio (num * base + digit * den) den

/-- The double of a whole number that is written with the given digits. Of at most `exact` digits
it is the nearest double; of more digits the value is rounded after each. -/
def Double.ofDigits (base exact : Nat) (digits : List Nat) : Double :=
  if digits.length ≤ exact then ofNat (digits.foldl (fun n d => n * base + d) 0)
  else digits.foldl (Double.push base) (.finite 0 0)

end Relabel.Decimal

namespace Relabel.Script

open Text Decimal

/-- Digits with the number of characters they are written with. -/
structure Digits where
  values : List Nat
  length : Nat
  rest : List Char

/-- Whether underscores stand alone between digits. -/
def separatesWell : List Char → Bool
  | ['_'] => false
  | '_' :: '_' :: _ => false
  | _ :: cs => separatesWell cs
  | [] => true

/-- The value of a digit of a base up to sixteen. -/
def digitOf? (base : Nat) (c : Char) : Option Nat := do
  let n ← hexDigit? c
  guard (n < base)
  return n

/-- The digits of a base at the start of a text, maybe none. -/
def digitRun? (base : Nat) (cs : List Char) : Option Digits := do
  let run := cs.takeWhile fun c => c == '_' || (digitOf? base c).isSome
  guard (run.head? != some '_' && separatesWell run)
  return ⟨run.filterMap (digitOf? base), run.length, cs.drop run.length⟩

/-- The digits of a base at the start of a text, at least one. -/
def digits? (base : Nat) (cs : List Char) : Option Digits := do
  let ds ← digitRun? base cs
  guard (!ds.values.isEmpty)
  return ds

def Digits.value (ds : Digits) : Nat :=
  ds.values.foldl (fun n d => n * 10 + d) 0

/-- How many digits of a base always fit into 64 bits. -/
def exactDigits : Nat → Nat
  | 2 => 64
  | 8 => 21
  | 10 => 19
  | _ => 16

/-- A whole number or a big integer, of which `length` characters and the digits have been read. -/
def wholeNumber (base length : Nat) (ds : Digits) : Lexeme :=
  match ds.rest with
  | 'n' :: rest =>
    ⟨.bigint (.ofList (Nat.toDigits base (ds.values.foldl (fun n d => n * base + d) 0))),
      length + ds.length + 1, rest⟩
  | rest => ⟨.number (.ofDigits base (exactDigits base) ds.values), length + ds.length, rest⟩

/-- An exponent and the number of its characters; no characters if there is none. -/
def exponent? : List Char → Option (Int × Nat × List Char)
  | c :: cs =>
    if c = 'e' || c = 'E' then
      match cs with
      | '+' :: cs => (digits? 10 cs).map fun ds => (ds.value, ds.length + 2, ds.rest)
      | '-' :: cs => (digits? 10 cs).map fun ds => (-(ds.value : Int), ds.length + 2, ds.rest)
      | cs => (digits? 10 cs).map fun ds => (ds.value, ds.length + 1, ds.rest)
    else some (0, 0, c :: cs)
  | [] => some (0, 0, [])

/-- A number whose whole part, written with `length` characters, has been read, from its point or
exponent on. -/
def decimal? (whole : List Nat) (length : Nat) (cs : List Char) : Option Lexeme := do
  let (fraction, point, cs) ← match cs with
    | '.' :: cs => (digitRun? 10 cs).map fun ds => (ds.values, ds.length + 1, ds.rest)
    | cs => some ([], 0, cs)
  let (exponent, size, rest) ← exponent? cs
  let digits := (whole ++ fraction).foldl (fun n d => n * 10 + d) 0
  return ⟨.number (.ofNumeral ⟨digits, exponent - fraction.length⟩), length + point + size, rest⟩

/-- Whether a fraction or an exponent begins. -/
def goesOn : List Char → Bool
  | c :: _ => c == '.' || c == 'e' || c == 'E'
  | [] => false

/-- A number whose first digit is a zero before another digit: an octal number, unless a digit is
too large for that. -/
def leadingZero? (cs : List Char) : Option Lexeme :=
  let run := cs.takeWhile Char.isDigit
  let rest := cs.drop run.length
  let values := run.map fun c => c.toNat - 48
  if run.all isOctal then
    some ⟨.number (.ofDigits 8 (exactDigits 8) (values.drop 1)), run.length, rest⟩
  else if goesOn rest then decimal? values run.length rest
  else some ⟨.number (.ofDigits 10 (exactDigits 10) values), run.length, rest⟩

/-- The number at the start of a text, whatever follows it. -/
def numeral? : List Char → Option Lexeme
  | '0' :: c :: cs =>
    if c = 'x' ∨ c = 'X' then (digits? 16 cs).map (wholeNumber 16 2)
    else if c = 'o' ∨ c = 'O' then (digits? 8 cs).map (wholeNumber 8 2)
    else if c = 'b' ∨ c = 'B' then (digits? 2 cs).map (wholeNumber 2 2)
    else if c.isDigit then leadingZero? ('0' :: c :: cs)
    else if c = '_' then none
    else if goesOn (c :: cs) then decimal? [0] 1 (c :: cs)
    else some (wholeNumber 10 1 ⟨[0], 0, c :: cs⟩)
  | '.' :: cs => do
    guard ((digits? 10 cs).isSome)
    decimal? [] 0 ('.' :: cs)
  | cs => do
    let ds ← digits? 10 cs
    if goesOn ds.rest then decimal? ds.values ds.length ds.rest
    else return wholeNumber 10 0 ds

/-- The number at the start of a text. -/
def number? (cs : List Char) : Option Lexeme := do
  let l ← numeral? cs
  guard (!l.rest.head?.any fun c => startsName c || c.isDigit)
  return l

end Relabel.Script
