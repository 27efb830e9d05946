import Relabel.Decimal.Double

/-!
# Shortest decimal text

`Double.text` writes the fewest digits that read back as the same double, the nearest such
numeral among those, always positional. A numeral reads back when it lies in the interval of
reals that round to the double.
-/

namespace Relabel.Decimal

/-- The reals that round to a double, in units of `1 / den`; the ends belong to it or not. -/
structure Interval where
  low : Nat
  value : Nat
  high : Nat
  den : Nat
  closed : Bool

/-- The interval of a finite double. Below a power of two the gap is half as wide. -/
def Interval.ofFinite (mantissa : Nat) (exponent : Int) : Interval :=
  let below := if mantissa = Double.leastMantissa ∧ -1074 < exponent then 1 else 2
  let (value, den) := scale2 (4 * mantissa) 1 (exponent - 2)
  let unit := (scale2 1 1 (exponent - 2)).1
  ⟨value - below * unit, value, value + 2 * unit, den, mantissa % 2 = 0⟩

/-- Whether `c / scale` lies in the interval, where `scale` is a ratio `up / down`. -/
def Interval.contains (i : Interval) (c up down : Nat) : Bool :=
  let x := c * down * i.den
  if i.closed then i.low * up ≤ x && x ≤ i.high * up else i.low * up < x && x < i.high * up

/-- The numeral with a given number of decimal places that lies in the interval and is nearest to
the value; of two equally near the greater. Only the two neighbours of the value come into
question. -/
def Interval.onGrid? (i : Interval) (places : Int) : Option Numeral :=
  let (up, down) := scale10 1 1 places
  let floor := i.value * up / (i.den * down)
  let rest := i.value * up % (i.den * down)
  match i.contains floor up down, i.contains (floor + 1) up down with
  | true, true =>
    some ⟨if 2 * rest < i.den * down then floor else floor + 1, -places⟩
  | true, false => some ⟨floor, -places⟩
  | false, true => some ⟨floor + 1, -places⟩
  | false, false => none

/-- How many places after the point the first digit of a ratio below one has. -/
def leadingPlace (num den : Nat) : Nat → Nat
  | 0 => 0
  | fuel + 1 => if den ≤ num then 0 else leadingPlace (num * 10) den fuel + 1

/-- The exponent `k` for which the value lies from `10 ^ (k - 1)` to `10 ^ k`. -/
def Interval.order (i : Interval) : Int :=
  if i.den ≤ i.value then digitCount (i.value / i.den)
  else 1 - (leadingPlace i.value i.den 400 : Int)

/-- The numeral of fewest digits that lies in the interval. -/
def Interval.shortest (i : Interval) : Numeral :=
  let grids := List.range' 1 17
  (grids.findSome? fun (count : Nat) => i.onGrid? (count - i.order)).getD ⟨0, 0⟩

/-- The text of a numeral without exponent, and without a point where no digit follows it. -/
def Numeral.positional (n : Numeral) : List Char :=
  if 0 ≤ n.exponent then Nat.toDigits 10 (n.digits * tens n.exponent.toNat)
  else
    let places := (-n.exponent).toNat
    let fraction := Nat.toDigits 10 (n.digits % tens places)
    let fraction := List.replicate (places - fraction.length) '0' ++ fraction
    let fraction := (fraction.reverse.dropWhile (· == '0')).reverse
    let whole := Nat.toDigits 10 (n.digits / tens places)
    if fraction.isEmpty then whole else whole ++ '.' :: fraction

def Double.text : Double → String
  | .infinite => "inf"
  | .finite m e =>
    if m = 0 then "0" else .ofList (Interval.ofFinite m e).shortest.positional

end Relabel.Decimal
