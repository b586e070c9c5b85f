/-
How double precision numbers are written: the shortest decimal in positional notation, without an
exponent, without a point if there is nothing behind it, and with the sign of zero kept. What is
no finite number is written in letters.

* `positional`: a decimal in positional notation;
* `textOf`: a number as text.
-/
import DeductiveParsing.Decimal.Shortest

namespace DeductiveParsing.Decimal

/-- The text without the zeros at its end. -/
def dropZeros (cs : List Char) : List Char :=
  (cs.reverse.dropWhile (· == '0')).reverse

/-- A decimal in positional notation. -/
def positional (d : Numeral) : List Char :=
  let digits := Nat.toDigits 10 d.digits
  if 0 ≤ d.exponent then digits ++ List.replicate d.exponent.toNat '0'
  else
    let places := (-d.exponent).toNat
    let padded := List.replicate (places + 1 - digits.length) '0' ++ digits
    let whole := padded.take (padded.length - places)
    let fraction := dropZeros (padded.drop (padded.length - places))
    if fraction.isEmpty then whole else whole ++ '.' :: fraction

/-- A number as text. -/
def textOf (x : Float) : String :=
  let signed (negative : Bool) (text : List Char) : String :=
    String.ofList (if negative then '-' :: text else text)
  match Double.ofFloat x with
  | .notANumber => "NaN"
  | .infinite negative => signed negative ['i', 'n', 'f']
  | .finite negative mantissa exponent =>
    if mantissa = 0 then signed negative ['0']
    else signed negative (positional (shortest mantissa exponent))

end DeductiveParsing.Decimal
