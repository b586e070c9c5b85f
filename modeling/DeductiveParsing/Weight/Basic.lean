/-
Weights of productions and of items. The parsing schemata use only the operations of this class,
so that they run on double precision numbers and can be reasoned about over exact ones.

* `Weight`: the operations on weights.
-/

namespace DeductiveParsing

/-- The operations that weighted grammars and schemata need: the strict order by which a better
weight is preferred, the arithmetic of probabilities and of costs, and the written form. -/
class Weight (W : Type) where
  /-- The strict order. -/
  less : W → W → Bool
  zero : W
  /-- The cost of what is impossible. -/
  infinite : W
  add : W → W → W
  sub : W → W → W
  mul : W → W → W
  /-- The cost of a probability: its negated natural logarithm. -/
  cost : W → W
  /-- The probability of each of `n` equally likely cases. -/
  share : Nat → W
  /-- Whether a weight lies between zero and one, both included. -/
  isProbability : W → Bool
  read? : List Char → Option W
  text : W → String

end DeductiveParsing
