/-
Parsing with weights. The weight of a consequence is computed from those of its antecedents, so
that a run that keeps better weights finds best parses.

* `WeightedRule.product`: spans `[X,i,l]` whose weights are probabilities;
* `WeightedRule.guided`: spans `[X,i,j]` whose weights are costs with an estimate of what is still
  to come.
-/
import DeductiveParsing.Inference.Cyk
import DeductiveParsing.Weighted.Estimate

namespace DeductiveParsing

open Weighted (Estimates)

/-- The rules of parsing with weights, each for a production and its probability. -/
inductive WeightedRule (W : Type) where
  | product (production : Weighted.Production W)
  | guided (production : Weighted.Production W) (estimates : Estimates W)

namespace WeightedRule

variable {W : Type} [Weight W]

omit [Weight W] in
/-- The weighted production of a rule. -/
def production : WeightedRule W → Weighted.Production W
  | product p => p
  | guided p _ => p

omit [Weight W] in
/-- The number of premises. -/
def arity : WeightedRule W → Nat
  | _ => 2

/-- The name of a rule. -/
def name (rule : WeightedRule W) : String := "complete " ++ rule.production.text

/-- A rule as text. -/
def describe : WeightedRule W → String
  | product p =>
    let (b, c) := CykRule.twoNames p.production
    inference ("x1 : [" ++ b ++ ",i,l1], x2 : [" ++ c ++ ",i+l1,l2]") p.text
      (Weight.text p.weight ++ " * x1 * x2 : [" ++ p.production.lhs ++ ",i,l1+l2]")
  | guided p _ =>
    let (b, c) := CykRule.twoNames p.production
    inference ("w1 : [" ++ b ++ ",i,j], w2 : [" ++ c ++ ",j,k]") p.text
      ("w1 + w2 - ln " ++ Weight.text p.weight ++ " + sx(" ++ p.production.lhs ++ ",i,k) : [" ++
        p.production.lhs ++ ",i,k]")

omit [Weight W] in
/-- The item of a span with a weight. -/
def item (name : String) (i j : Nat) (weight : W) (trees : List Tree) : Item W :=
  .weighted [.symbol name, .index i, .index j] weight trees

omit [Weight W] in
/-- The trees of a production over those of its two parts. -/
def joinedTrees (p : DeductiveParsing.Production) (left right : Item W) : List Tree :=
  Forest.fillings (Tree.ofProduction p) [left.trees, right.trees]

/-- The consequence of two spans with probabilities. -/
def joinProduct (p : Weighted.Production W) (left right : Item W) : Option (Firing W) := do
  let b ← left.symbol? 0
  let i ← left.index? 1
  let l ← left.index? 2
  let c ← right.symbol? 0
  let j ← right.index? 1
  let m ← right.index? 2
  let x ← left.weight
  let y ← right.weight
  if i + l = j ∧ p.production.rhsNames.take 2 = [b, c] then
    let weight := Weight.mul (Weight.mul p.weight x) y
    Firing.one (name (product p))
      (item p.production.lhs i (l + m) weight (joinedTrees p.production left right))
  else none

/-- The consequence of two spans with costs. From each cost its own estimate is taken off, and the
estimate of the whole is put on. -/
def joinGuided (p : Weighted.Production W) (estimates : Estimates W) (left right : Item W) :
    Option (Firing W) := do
  let b ← left.symbol? 0
  let i ← left.index? 1
  let j ← left.index? 2
  let c ← right.symbol? 0
  let j' ← right.index? 1
  let k ← right.index? 2
  let x ← left.weight
  let y ← right.weight
  if j = j' ∧ i ≤ j ∧ j ≤ k ∧ p.production.rhsNames.take 2 = [b, c] then
    let insideLeft := Weight.sub x (← estimates.outside? b i (j - i))
    let insideRight := Weight.sub y (← estimates.outside? c j (k - j))
    let around ← estimates.outside? p.production.lhs i (k - i)
    let weight :=
      Weight.add (Weight.add (Weight.add (Weight.cost p.weight) insideLeft) insideRight) around
    Firing.one (name (guided p estimates))
      (item p.production.lhs i k weight (joinedTrees p.production left right))
  else none

/-- The consequences for antecedents. -/
def fire : WeightedRule W → List (Item W) → Option (Firing W)
  | product p, [x, y] => Firing.eitherOrder? (joinProduct p) x y
  | guided p estimates, [x, y] => Firing.eitherOrder? (joinGuided p estimates) x y
  | _, _ => none

end WeightedRule

end DeductiveParsing
