/-
What a deduction does with a consequence that is already in the chart, and how large the chart may
grow.

* `Policy`: all derivations are kept, or only the best;
* `Settings`: a policy and a limit.
-/
import DeductiveParsing.Weight.Basic

namespace DeductiveParsing

/-- What happens to a consequence that is already in the chart: its derivation is recorded beside
the others, or it takes the place of the entry if its weight is strictly higher, or lower. -/
inductive Policy where
  | accumulate
  | higherWins
  | lowerWins
deriving DecidableEq, Repr

/-- Whether a policy prefers a new weight to an old one. Without both weights it does not. -/
def Policy.prefers {W : Type} [Weight W] : Policy → Option W → Option W → Bool
  | .higherWins, some new, some old => Weight.less old new
  | .lowerWins, some new, some old => Weight.less new old
  | _, _, _ => false

/-- A policy, and the number of items that the chart may hold at most. -/
structure Settings where
  policy : Policy
  limit : Option Nat
deriving DecidableEq, Repr

end DeductiveParsing
