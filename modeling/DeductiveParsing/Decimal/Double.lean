/-
Double precision numbers as exact binary fractions. A finite number is a mantissa below `2 ^ 53`
times a power of two whose exponent lies between `-1074` and `971`.

* `Double.ofFloat`: the sign and the exact value of a number;
* `roundEven`: the whole number nearest to a fraction, the even one of two;
* `Double.nearest`: the double nearest to a fraction.
-/

namespace DeductiveParsing.Decimal

/-- A decimal fraction: `digits * 10 ^ exponent`. -/
structure Numeral where
  digits : Nat
  exponent : Int
deriving DecidableEq, Repr

/-- What a double precision number stands for: no number, an infinity or a finite value, which is
`mantissa * 2 ^ exponent` with a sign. -/
inductive Double where
  | notANumber
  | infinite (negative : Bool)
  | finite (negative : Bool) (mantissa : Nat) (exponent : Int)
deriving DecidableEq, Repr

/-- The exponent of the smallest positive number. -/
def leastExponent : Int := -1074

/-- The number of exponent fields that stand for finite numbers. -/
def finiteFields : Nat := 2047

/-- The sign and the exact value of a number. -/
def Double.ofFloat (x : Float) : Double :=
  let bits := x.toBits.toNat
  let negative := bits ≥ Nat.pow 2 63
  let field := bits / Nat.pow 2 52 % Nat.pow 2 11
  let fraction := bits % Nat.pow 2 52
  if field = finiteFields then
    if fraction = 0 then .infinite negative else .notANumber
  else if field = 0 then .finite negative fraction leastExponent
  else .finite negative (Nat.pow 2 52 + fraction) (field - 1 + leastExponent)

/-- The whole number nearest to `num / den`, and the even one of two that are equally near. -/
def roundEven (num den : Nat) : Nat :=
  let floor := num / den
  let twice := 2 * (num % den)
  if twice < den then floor
  else if den < twice then floor + 1
  else floor + floor % 2

/-- The fraction `num / den` divided by `base ^ k`, as numerator and denominator. -/
def scaleDown (base num den : Nat) (k : Int) : Nat × Nat :=
  if 0 ≤ k then (num, den * Nat.pow base k.toNat) else (num * Nat.pow base (-k).toNat, den)

/-- The exponent `e` with `2 ^ e ≤ num / den < 2 ^ (e + 1)`, for a positive fraction. -/
def binaryExponent (num den : Nat) : Int :=
  let guess : Int := num.log2 - den.log2
  let (n, d) := scaleDown 2 num den guess
  if n < d then guess - 1 else guess

/-- The number with the given sign nearest to the fraction `num / den`, and the one with the even
mantissa of two. A carry out of the mantissa moves into the exponent field, and what is
too large becomes infinite. -/
def Double.nearest (negative : Bool) (num den : Nat) : Float :=
  let exponent :=
    if num = 0 then leastExponent else max (binaryExponent num den - 52) leastExponent
  let (n, d) := scaleDown 2 num den exponent
  let bits := (exponent - leastExponent).toNat * Nat.pow 2 52 + roundEven n d
  let bounded := min bits (finiteFields * Nat.pow 2 52)
  Float.ofBits (UInt64.ofNat (if negative then Nat.pow 2 63 + bounded else bounded))

end DeductiveParsing.Decimal
