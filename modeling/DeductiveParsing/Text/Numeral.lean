/-
Decimal numerals. A numeral is a sequence of ASCII digits, which may follow one plus sign; an index
numeral denotes a number below `2 ^ 64`.

* `digitsValue?`: the number that a nonempty sequence of digits denotes;
* `readNumber?`: the number that a numeral denotes;
* `readIndex?`: the number that an index numeral denotes.
-/

namespace DeductiveParsing.Text

/-- The value of an ASCII digit. -/
def digit? (c : Char) : Option Nat :=
  if c.isDigit then some (c.toNat - '0'.toNat) else none

/-- The number denoted by the digits of `cs` written after digits that denote `value`. -/
def digitsValueAfter (value : Nat) : List Char → Option Nat
  | [] => some value
  | c :: cs =>
    match digit? c with
    | some d => digitsValueAfter (10 * value + d) cs
    | none => none

/-- The number denoted by a nonempty sequence of digits. -/
def digitsValue? : List Char → Option Nat
  | [] => none
  | cs => digitsValueAfter 0 cs

/-- Reads a numeral. -/
def readNumber? (cs : List Char) : Option Nat :=
  let unsigned :=
    match cs with
    | '+' :: rest => rest
    | _ => cs
  digitsValue? unsigned

/-- Index numerals denote numbers below this bound. -/
def indexBound : Nat := Nat.pow 2 64

/-- Reads an index numeral. -/
def readIndex? (cs : List Char) : Option Nat := (readNumber? cs).filter (· < indexBound)

end DeductiveParsing.Text
