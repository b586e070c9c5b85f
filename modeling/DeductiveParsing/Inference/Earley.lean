/-
Earley parsing. An item `[A -> α • β,i,j]` says that `α` derives the tokens between `i` and `j` and
that `A` may begin at `i`.

* `EarleyRule.scan`: the dot moves over the next token;
* `EarleyRule.predict`: a production of the nonterminal behind the dot may begin here;
* `EarleyRule.complete`: the dot moves over a nonterminal that has been found.
-/
import DeductiveParsing.Inference.Firing
import DeductiveParsing.Item.Forest

namespace DeductiveParsing

/-- The rules of Earley parsing. -/
inductive EarleyRule where
  | scan (tokens : List String)
  | predict (production : Production)
  | complete
deriving DecidableEq, Repr

namespace EarleyRule

variable {W : Type}

/-- The number of premises. -/
def arity : EarleyRule → Nat
  | scan _ => 1
  | predict _ => 1
  | complete => 2

/-- The name of a rule. -/
def name : EarleyRule → String
  | scan _ => "scan"
  | predict p => "predict " ++ p.text
  | complete => "complete"

/-- A rule as text. -/
def describe : EarleyRule → String
  | scan _ => inference "[A -> α •a β,i,j]" "w_j+1 = a" "[A -> α a •β,i,j+1]"
  | predict p =>
    inference ("[A -> α •" ++ p.lhs ++ " β,i,j]") p.text
      ("[" ++ p.lhs ++ " -> •" ++ p.rhsText ++ ",j,j]")
  | complete => inference "[A -> α •B β,i,j] [B -> γ •,j,k]" "" "[A -> α B •β,i,k]"

/-- The item of a dotted production. -/
def item (d : Dotted) (i j : Nat) (trees : List Tree) : Item W :=
  .withTrees [.dotted d, .index i, .index j] trees

/-- The dot of `active` moved over the production that `done` has completed. -/
def completeWith (active done : Item W) : Option (Firing W) := do
  let a ← active.dotted? 0
  let i ← active.index? 1
  let j ← active.index? 2
  let b ← done.dotted? 0
  let j' ← done.index? 1
  let k ← done.index? 2
  if j = j' ∧ b.isActive = false ∧ a.next? = some (.nonterminal b.production.lhs) then
    let advanced ← a.advance?
    let trees := Choice.distinct (active.trees.flatMap fun t => Forest.fill t [done.trees])
    Firing.one (name complete) (item advanced i k trees)
  else none

/-- The consequences for antecedents. -/
def fire : EarleyRule → List (Item W) → Option (Firing W)
  | scan tokens, [premise] => do
    let d ← premise.dotted? 0
    let i ← premise.index? 1
    let j ← premise.index? 2
    let advanced ← d.advance?
    match d.next? with
    | some (.terminal a) =>
      if tokens[j]? = some a then Firing.one ("scan " ++ a) (item advanced i (j + 1) premise.trees)
      else none
    | _ => none
  | predict p, [premise] => do
    let d ← premise.dotted? 0
    let j ← premise.index? 2
    if d.next? = some (.nonterminal p.lhs) then
      Firing.one (name (predict p)) (item (.ofProduction p) j j [Tree.ofProduction p])
    else none
  | complete, [x, y] => Firing.eitherOrder? completeWith x y
  | _, _ => none

end EarleyRule

end DeductiveParsing
