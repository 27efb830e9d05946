/-!
# Doubles

The non-negative binary doubles, as `mantissa · 2 ^ exponent` in exact arithmetic, and the double
nearest to a ratio or a decimal numeral. A tie goes to the even mantissa.
-/

namespace Relabel.Decimal

/-- A non-negative double. -/
inductive Double where
  | finite (mantissa : Nat) (exponent : Int)
  | infinite
  deriving DecidableEq, Repr, Inhabited

/-- A decimal numeral stands for `digits · 10 ^ exponent`. -/
structure Numeral where
  digits : Nat
  exponent : Int
  deriving DecidableEq, Repr, Inhabited

/-- The whole number nearest to a ratio; a half goes to the even neighbour. -/
def roundHalfEven (num den : Nat) : Nat :=
  let quotient := num / den
  let twice := 2 * (num % den)
  if twice < den then quotient
  else if den < twice then quotient + 1
  else quotient + quotient % 2

/-- The ratio `num / den · 2 ^ power`, as a ratio. -/
def scale2 (num den : Nat) (power : Int) : Nat × Nat :=
  if 0 ≤ power then (num <<< power.toNat, den) else (num, den <<< (-power).toNat)

/-- A power of ten. -/
def tens (exponent : Nat) : Nat :=
  Nat.pow 10 exponent

/-- The ratio `num / den · 10 ^ power`, as a ratio. -/
def scale10 (num den : Nat) (power : Int) : Nat × Nat :=
  if 0 ≤ power then (num * tens power.toNat, den) else (num, den * tens (-power).toNat)

/-- The exponent of the greatest power of two that is at most `num / den`. -/
def binaryOrder (num den : Nat) : Int :=
  let order : Int := num.log2 - den.log2
  let (n, d) := scale2 num den (-order)
  if d ≤ n then order else order - 1

/-- The number of decimal digits of a whole number. -/
def digitCount (n : Nat) : Nat :=
  (Nat.toDigits 10 n).length

namespace Double

/-- The mantissa of a power of two, the least that a normal double has. -/
def leastMantissa : Nat :=
  1 <<< 52

/-- The double nearest to a ratio. -/
def ofRatio (num den : Nat) : Double :=
  if num = 0 then .finite 0 0
  else
    let exponent := max (binaryOrder num den - 52) (-1074)
    let (n, d) := scale2 num den (-exponent)
    let mantissa := roundHalfEven n d
    let (mantissa, exponent) :=
      if mantissa < 2 * leastMantissa then (mantissa, exponent) else (leastMantissa, exponent + 1)
    if exponent ≤ 971 then .finite mantissa exponent else .infinite

/-- The double nearest to a whole number. -/
def ofNat (n : Nat) : Double :=
  ofRatio n 1

/-- The double nearest to a decimal numeral; far outside the range no power is computed. -/
def ofNumeral (n : Numeral) : Double :=
  let order := n.exponent + digitCount n.digits
  if n.digits = 0 ∨ order < -400 then .finite 0 0
  else if 400 < order then .infinite
  else
    let (num, den) := scale10 n.digits 1 n.exponent
    ofRatio num den

/-- The whole number that a double is, if it is one. -/
def toNat? : Double → Option Nat
  | .infinite => none
  | .finite m e =>
    let (num, den) := scale2 m 1 e
    if num % den = 0 then some (num / den) else none

end Double

end Relabel.Decimal
