/-
The inference rules of all parsing schemata.

* `Rule`: the sum of the rules of each schema;
* `Rule.arity`, `Rule.name`, `Rule.describe`: the number of premises, the name, the rule as text;
* `Rule.fire?`: the consequences of a rule for antecedents, if there are as many as premises.
-/
import DeductiveParsing.Inference.Earley
import DeductiveParsing.Inference.LeftCorner
import DeductiveParsing.Inference.Lr
import DeductiveParsing.Inference.ShiftReduce
import DeductiveParsing.Inference.TopDown
import DeductiveParsing.Inference.TreeEarley
import DeductiveParsing.Inference.Unger
import DeductiveParsing.Inference.Weighted

namespace DeductiveParsing

/-- An inference rule of some parsing schema. -/
inductive Rule (W : Type) where
  | topDown (rule : TopDownRule)
  | shiftReduce (rule : ShiftReduceRule)
  | earley (rule : EarleyRule)
  | leftCorner (rule : LeftCornerRule)
  | cyk (rule : CykRule)
  | unger (rule : UngerRule)
  | lr (rule : LrRule)
  | weighted (rule : WeightedRule W)
  | treeCyk (rule : TreeCykRule)
  | treeEarley (rule : TreeEarleyRule)

namespace Rule

variable {W : Type}

/-- The number of premises. -/
def arity : Rule W → Nat
  | topDown r => r.arity
  | shiftReduce r => r.arity
  | earley r => r.arity
  | leftCorner r => r.arity
  | cyk r => r.arity
  | unger r => r.arity
  | lr r => r.arity
  | weighted r => r.arity
  | treeCyk r => r.arity
  | treeEarley r => r.arity

/-- The name of a rule. Some rules fire under a more specific one. -/
def name [Weight W] : Rule W → String
  | topDown r => r.name
  | shiftReduce r => r.name
  | earley r => r.name
  | leftCorner r => r.name
  | cyk r => r.name
  | unger r => r.name
  | lr r => r.name
  | weighted r => r.name
  | treeCyk r => r.name
  | treeEarley r => r.name

/-- A rule as text. -/
def describe [Weight W] : Rule W → String
  | topDown r => r.describe
  | shiftReduce r => r.describe
  | earley r => r.describe
  | leftCorner r => r.describe
  | cyk r => r.describe
  | unger r => r.describe
  | lr r => r.describe
  | weighted r => r.describe
  | treeCyk r => r.describe
  | treeEarley r => r.describe

/-- The consequences for antecedents, as the rules of each schema give them. -/
def fire [Weight W] : Rule W → List (Item W) → Option (Firing W)
  | topDown r => r.fire
  | shiftReduce r => r.fire
  | earley r => r.fire
  | leftCorner r => r.fire
  | cyk r => r.fire
  | unger r => r.fire
  | lr r => r.fire
  | weighted r => r.fire
  | treeCyk r => r.fire
  | treeEarley r => r.fire

/-- The consequences of a rule, if there are as many antecedents as it has premises. -/
def fire? [Weight W] (rule : Rule W) (antecedents : List (Item W)) : Option (Firing W) :=
  if antecedents.length = rule.arity then rule.fire antecedents else none

end Rule

end DeductiveParsing
