/-
How double precision numbers are read. A numeral is an optional sign, then digits with at most one
point and at least one digit, then optionally the letter `e` with a whole number as exponent; the
words for the infinities and for no number are read in any case. The value is rounded once, to the
nearest number.

* `readNumeral?`: the exact value of a numeral;
* `readFloat?`: the number that a text denotes.
-/
import DeductiveParsing.Decimal.Double
import DeductiveParsing.Text.Numeral

namespace DeductiveParsing.Decimal

/-- Cuts a text behind its leading ASCII digits. -/
def spanDigits (cs : List Char) : List Char × List Char :=
  cs.span Char.isDigit

/-- Cuts off a sign; the first component says whether it is a minus. -/
def takeSign : List Char → Bool × List Char
  | '-' :: cs => (true, cs)
  | '+' :: cs => (false, cs)
  | cs => (false, cs)

/-- The exponent part of a numeral: nothing, or the letter `e` and a signed whole number. -/
def readExponent? : List Char → Option Int
  | [] => some 0
  | c :: cs =>
    if c = 'e' ∨ c = 'E' then
      let (negative, digits) := takeSign cs
      (Text.digitsValue? digits).map fun (n : Nat) => if negative then -(n : Int) else n
    else none

/-- Reads a numeral without sign. -/
def readNumeral? (cs : List Char) : Option Numeral := do
  let (whole, rest) := spanDigits cs
  let (fraction, rest) :=
    match rest with
    | '.' :: rest => spanDigits rest
    | _ => ([], rest)
  let digits ← Text.digitsValue? (whole ++ fraction)
  let exponent ← readExponent? rest
  return { digits, exponent := exponent - fraction.length }

/-- The number nearest to a numeral. What is far out of range is settled by its order of
magnitude alone. -/
def Numeral.toFloat (negative : Bool) (n : Numeral) : Float :=
  let magnitude := (Nat.toDigits 10 n.digits).length + n.exponent
  if n.digits = 0 ∨ magnitude < -400 then Double.nearest negative 0 1
  else if 400 < magnitude then Double.nearest negative (Nat.pow 2 1024) 1
  else
    let (num, den) := scaleDown 10 n.digits 1 (-n.exponent)
    Double.nearest negative num den

/-- The words that denote no finite number. -/
def readWord? (negative : Bool) (cs : List Char) : Option Float :=
  let infinite := Double.nearest negative (Nat.pow 2 1024) 1
  match String.ofList (cs.map Char.toLower) with
  | "inf" => some infinite
  | "infinity" => some infinite
  | "nan" => some (infinite - infinite)
  | _ => none

/-- Reads a number. -/
def readFloat? (cs : List Char) : Option Float :=
  let (negative, unsigned) := takeSign cs
  match readNumeral? unsigned with
  | some n => some (n.toFloat negative)
  | none => readWord? negative unsigned

end DeductiveParsing.Decimal
