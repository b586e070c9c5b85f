/-
Shift-reduce parsing with a parse table. The stack of an item begins and ends with a state, and
states and symbols take turns on it.

* `LrRule.shift`: the next token and the state that the table shifts to;
* `LrRule.reduce`: a right-hand side with its states gives way to the left-hand side, if the table
  reduces here.
-/
import DeductiveParsing.Inference.Firing
import DeductiveParsing.Lr.Table

namespace DeductiveParsing

/-- The rules of parsing with a table. -/
inductive LrRule where
  | shift (table : Lr.Table) (tokens : List String)
  | reduce (number : Nat) (table : Lr.Table) (tokens : List String)
deriving Repr

namespace LrRule

variable {W : Type}

/-- The number of premises. -/
def arity : LrRule → Nat
  | _ => 1

/-- The name of a rule. -/
def name : LrRule → String
  | shift _ _ => "shift"
  | reduce n table _ =>
    match table.production? n with
    | some p => "reduce " ++ p.text
    | none => "reduce"

/-- A name without the leading words that say that it is a reduction. -/
def reducedText : List Char → List Char
  | 'r' :: 'e' :: 'd' :: 'u' :: 'c' :: 'e' :: ' ' :: rest => reducedText rest
  | cs => cs

/-- A rule as text. -/
def describe : LrRule → String
  | shift _ _ => inference "[Γ q,i]" "w_i+1 = a, shift to q' in q" "[Γ q a q',i+1]"
  | reduce n table tokens =>
    inference "[Γ p X1 q1 ... Xk qk,i]"
      (String.ofList (reducedText (name (reduce n table tokens)).toList) ++
        ", reduce in qk, goto q from p")
      "[Γ p A q,i]"

/-- The state of a shift. -/
def shiftTarget? : Lr.Action → Option Nat
  | .shift q => some q
  | _ => none

/-- The elements of a list at even places. -/
def everySecond : List String → List String
  | [] => []
  | [x] => [x]
  | x :: _ :: rest => x :: everySecond rest

/-- The stack below a right-hand side and its states, if they are on top and something is below. -/
def unstack? (stack : List String) (p : Production) : Option (List String) :=
  let size := 2 * p.rhs.length
  let base := stack.length - size
  if size < stack.length ∧ everySecond (stack.drop base) = p.rhsNames then some (stack.take base)
  else none

/-- The consequences for an antecedent. -/
def fire (rule : LrRule) : List (Item W) → Option (Firing W)
  | [premise] => do
    let stack ← premise.sequence? 0
    let i ← premise.index? 1
    let top ← Lr.stackState? stack
    match rule with
    | shift table tokens =>
      let token ← tokens[i]?
      let q ← (table.actions top token).findSome? shiftTarget?
      Firing.one ("shift " ++ token)
        (.ofForm [.sequence (stack ++ [token, Lr.stateName q]), .index (i + 1)])
    | reduce n table tokens =>
      let lookahead := (tokens[i]?).getD Lr.endMark
      if (table.actions top lookahead).contains (.reduce n) then
        let p ← table.production? n
        let below ← unstack? stack p
        let q ← table.goto? (← Lr.stackState? below) p.lhs
        Firing.one (name (reduce n table tokens))
          (.ofForm [.sequence (below ++ [p.lhs, Lr.stateName q]), .index i])
      else none
  | _ => none

end LrRule

end DeductiveParsing
