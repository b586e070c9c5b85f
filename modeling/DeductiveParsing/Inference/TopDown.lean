/-
Top-down parsing. An item `[α,i]` says that `α` is still to be found behind the first `i` tokens.

* `TopDownRule.scan`: the first symbol is the next token;
* `TopDownRule.predict`: the first symbol is replaced by a right-hand side, as long as the rest of
  the input has room for it.
-/
import DeductiveParsing.Inference.Firing
import DeductiveParsing.Tree.Surgery

namespace DeductiveParsing

/-- The rules of top-down parsing. -/
inductive TopDownRule where
  | scan (tokens : List String)
  | predict (production : Production) (length : Nat)
deriving DecidableEq, Repr

namespace TopDownRule

variable {W : Type}

/-- The number of premises. -/
def arity : TopDownRule → Nat
  | _ => 1

/-- The name of a rule. -/
def name : TopDownRule → String
  | scan _ => "scan"
  | predict p _ => "predict " ++ p.text

/-- A rule as text. -/
def describe : TopDownRule → String
  | scan _ => inference "[aα,i]" "w_i+1 = a" "[α,i+1]"
  | predict p _ =>
    inference ("[" ++ p.lhs ++ "α,i]") (p.text ++ ", |" ++ p.rhsText ++ " α| ≤ n - i")
      ("[" ++ p.rhsText ++ " α,i]")

/-- The trees behind a prediction: the production's tree in the place of the first open leaf, or
alone if there is no tree yet. -/
def predictedTrees (p : Production) (trees : List Tree) : List Tree :=
  if trees.isEmpty then [Tree.ofProduction p]
  else trees.filterMap fun t => t.substituteLeftmost? (Tree.ofProduction p)

/-- The consequences for an antecedent. -/
def fire (rule : TopDownRule) : List (Item W) → Option (Firing W)
  | [premise] => do
    let stack ← premise.sequence? 0
    let i ← premise.index? 1
    match rule, stack with
    | _, [] => none
    | scan tokens, top :: rest =>
      if tokens[i]? = some top then
        Firing.one ("scan " ++ top) (.withTrees [.sequence rest, .index (i + 1)] premise.trees)
      else none
    | predict p length, top :: rest =>
      let expanded := p.rhsNames ++ rest
      if top = p.lhs ∧ i ≤ length ∧ expanded.length ≤ length - i then
        Firing.one (name (predict p length))
          (.withTrees [.sequence expanded, .index i] (predictedTrees p premise.trees))
      else none
  | _ => none

end TopDownRule

end DeductiveParsing
