/-
The shortest decimal of a positive double precision number: among the decimals that round to the
number those with the fewest digits, and of these the nearest. A decimal that is exactly between
two loses to the larger.

* `rounding`: the interval of fractions that round to a number;
* `decimalExponent`: the place of the first digit of a fraction;
* `shortest`: digits and exponent of the shortest decimal.
-/
import DeductiveParsing.Decimal.Double

namespace DeductiveParsing.Decimal

/-- The fractions that round to one number: all between `low / scale` and `high / scale`, the ends
included if `closed`. The number itself is `value / scale`. -/
structure Rounding where
  low : Nat
  value : Nat
  high : Nat
  scale : Nat
  closed : Bool

/-- The interval that rounds to `mantissa * 2 ^ exponent`. Its ends lie half way to the two
neighbours, and the lower neighbour of a power of two is half as far away as the upper. The ends
round to the number if its mantissa is even. -/
def rounding (mantissa : Nat) (exponent : Int) : Rounding :=
  let below := if mantissa = Nat.pow 2 52 ∧ leastExponent < exponent then 1 else 2
  let (unit, scale) := scaleDown 2 1 1 (2 - exponent)
  { low := (4 * mantissa - below) * unit
    value := 4 * mantissa * unit
    high := (4 * mantissa + 2) * unit
    scale
    closed := mantissa % 2 = 0 }

/-- The number of decimal digits of a number. -/
def digitCount (n : Nat) : Nat :=
  (Nat.toDigits 10 n).length

/-- The exponent `k` with `10 ^ (k - 1) ≤ num / den < 10 ^ k`, for a positive fraction. -/
def decimalExponent (num den : Nat) : Int :=
  if den ≤ num then digitCount (num / den) else 1 - digitCount ((den - 1) / num)

/-- The decimal among the multiples of `10 ^ exponent` that rounds to the number, if there is one.
Only the two multiples next to the number can be nearest. -/
def Rounding.onGrid? (r : Rounding) (exponent : Int) : Option Numeral :=
  let (num, den) := scaleDown 10 r.value r.scale exponent
  let (lowNum, _) := scaleDown 10 r.low r.scale exponent
  let (highNum, _) := scaleDown 10 r.high r.scale exponent
  let floor := num / den
  let down := if r.closed then lowNum ≤ floor * den else lowNum < floor * den
  let up := if r.closed then (floor + 1) * den ≤ highNum else (floor + 1) * den < highNum
  let upper := up && (!down || den ≤ 2 * (num % den))
  if upper then some ⟨floor + 1, exponent⟩
  else if down then some ⟨floor, exponent⟩
  else none

/-- The shortest decimal of the positive number `mantissa * 2 ^ exponent`. Seventeen digits always
suffice; the exact value stands as the last resort. -/
def shortest (mantissa : Nat) (exponent : Int) : Numeral :=
  let r := rounding mantissa exponent
  let place := decimalExponent r.value r.scale
  let grids := (List.range 17).map fun (n : Nat) => place - 1 - (n : Int)
  (grids.findSome? r.onGrid?).getD ⟨r.value / r.scale, 0⟩

end DeductiveParsing.Decimal
