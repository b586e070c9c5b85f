/-
Double precision numbers as weights.

* the instance `Weight Float`.
-/
import DeductiveParsing.Decimal.Reader
import DeductiveParsing.Decimal.Text
import DeductiveParsing.Weight.Basic

namespace DeductiveParsing

/-- The infinite double, which is the quotient of one and zero. -/
def infiniteDouble : Float := 1.0 / 0.0

instance : Weight Float where
  less x y := x < y
  zero := 0.0
  infinite := infiniteDouble
  add x y := x + y
  sub x y := x - y
  mul x y := x * y
  cost x := -x.log
  share n := 1.0 / n.toFloat
  isProbability x := 0.0 ≤ x && x ≤ 1.0
  read? := Decimal.readFloat?
  text := Decimal.textOf

end DeductiveParsing
