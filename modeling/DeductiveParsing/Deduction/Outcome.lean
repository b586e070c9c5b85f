/-
The outcome of a deduction.

* `Outcome`: the final chart, the goals found in it, their trees and what contributes to them;
* `run`: the outcome of a run that expands a bounded number of positions;
* `deduce`: the outcome of a run, for all practical purposes without a bound.
-/
import DeductiveParsing.Deduction.Engine
import DeductiveParsing.Deduction.Useful

namespace DeductiveParsing

/-- A chart, the positions of the goals in it, the trees that these carry, and the positions of all
entries that contribute to them. -/
structure Outcome (W : Type) where
  chart : Chart W
  goals : List Nat
  trees : List Tree
  useful : List Nat

namespace Outcome

variable {W : Type}

/-- Nothing derived and nothing derivable. -/
def underivable : Outcome W := ⟨.empty, [], [], []⟩

/-- Whether a goal was derived. -/
def isDerivable (o : Outcome W) : Bool := !o.goals.isEmpty

/-- The outcome for a final chart. -/
def ofChart (goals : List (Item W)) (c : Chart W) : Outcome W :=
  let positions := Choice.distinct (goals.filterMap c.position?)
  { chart := c
    goals := positions
    trees := Choice.distinct ((positions.filterMap c.item?).flatMap Item.trees)
    useful := Deduction.usefulPositions c positions }

end Outcome

namespace Deduction

variable {W : Type} [Weight W]

/-- The outcome of a run that expands at most `fuel` positions. -/
def run (settings : Settings) (schema : Schema W) (fuel : Nat) : Except Failure (Outcome W) :=
  (finalState settings schema fuel).map fun s => .ofChart schema.goals s.chart

/-- More positions than any run can expand that is ever waited for. -/
def ampleFuel : Nat := Nat.pow 2 62

/-- The outcome of a run, or what there is without a schema. -/
def deduce (settings : Settings) : Option (Schema W) → Except Failure (Outcome W)
  | some schema => run settings schema ampleFuel
  | none => .ok .underivable

end Deduction

end DeductiveParsing
