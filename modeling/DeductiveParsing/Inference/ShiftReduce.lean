/-
Shift-reduce parsing. An item `[Γ,i]` says that the symbols `Γ` derive the first `i` tokens.

* `ShiftReduceRule.shift`: the next token is put on the stack;
* `ShiftReduceRule.reduce`: a right-hand side on top of the stack gives way to its left-hand side.
-/
import DeductiveParsing.Inference.Firing

namespace DeductiveParsing

/-- The rules of shift-reduce parsing. -/
inductive ShiftReduceRule where
  | shift (tokens : List String)
  | reduce (production : Production)
deriving DecidableEq, Repr

namespace ShiftReduceRule

variable {W : Type}

/-- The number of premises. -/
def arity : ShiftReduceRule → Nat
  | _ => 1

/-- The name of a rule. -/
def name : ShiftReduceRule → String
  | shift _ => "shift"
  | reduce p => "reduce " ++ p.text

/-- A rule as text. -/
def describe : ShiftReduceRule → String
  | shift _ => inference "[Γ,i]" "w_i+1 = a" "[Γa,i+1]"
  | reduce p => inference ("[Γ" ++ p.rhsText ++ ",i]") p.text ("[Γ" ++ p.lhs ++ ",i]")

/-- The stack with the nonempty sequence `names` taken off its top, if it is there. -/
def unstack? (stack names : List String) : Option (List String) :=
  let base := stack.length - names.length
  if names ≠ [] ∧ stack.drop base = names then some (stack.take base) else none

/-- The consequences for an antecedent. -/
def fire (rule : ShiftReduceRule) : List (Item W) → Option (Firing W)
  | [premise] => do
    let stack ← premise.sequence? 0
    let i ← premise.index? 1
    match rule with
    | shift tokens =>
      let token ← tokens[i]?
      Firing.one ("shift " ++ token) (.ofForm [.sequence (stack ++ [token]), .index (i + 1)])
    | reduce p =>
      let below ← unstack? stack p.rhsNames
      Firing.one (name (reduce p)) (.ofForm [.sequence (below ++ [p.lhs]), .index i])
  | _ => none

end ShiftReduceRule

end DeductiveParsing
