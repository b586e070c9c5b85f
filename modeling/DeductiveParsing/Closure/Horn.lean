/-
Consequences of clauses. A clause says that its conclusion holds if all its premises hold. Every
fact is discharged from the premises of the clauses, and a clause without premises left yields a
fact, once.

* `Clause`: premises and a conclusion;
* `consequencesFrom`: what follows from facts and clauses, with what is known already;
* `consequences`: what follows from clauses alone.
-/
import DeductiveParsing.Closure.Reachable

namespace DeductiveParsing

/-- If all premises hold, so does the conclusion. -/
structure Clause (α : Type) where
  premises : List α
  conclusion : α
deriving DecidableEq, Repr

namespace Clause

variable {α : Type}

/-- Whether no premise is left. -/
def isReady (c : Clause α) : Bool := c.premises.isEmpty

variable [DecidableEq α]

/-- The clause without the premise `x`. -/
def discharge (x : α) (c : Clause α) : Clause α := { c with premises := c.premises.filter (· ≠ x) }

/-- The clauses without the premise `x`: first those that are ready then, and the others. -/
def dischargeAll (x : α) (clauses : List (Clause α)) : List (Clause α) × List (Clause α) :=
  (clauses.map (discharge x)).partition isReady

/-- No clause is lost. -/
theorem length_dischargeAll (x : α) (clauses : List (Clause α)) :
    (dischargeAll x clauses).1.length + (dischargeAll x clauses).2.length = clauses.length := by
  rw [dischargeAll, length_partition, List.length_map]

/-- The elements of `known` and what follows from them, the facts and the clauses. The premises in
`known` are discharged already. -/
def consequencesFrom (clauses : List (Clause α)) (known : List α) : List α → List α
  | [] => known
  | x :: facts =>
    if x ∈ known then consequencesFrom clauses known facts
    else
      let parts := dischargeAll x clauses
      consequencesFrom parts.2 (x :: known) (parts.1.map Clause.conclusion ++ facts)
termination_by facts => clauses.length + facts.length
decreasing_by
  · simp
  · have h := length_dischargeAll x clauses
    simp only [List.length_append, List.length_map, List.length_cons]
    omega

/-- What follows from clauses, each consequence once. -/
def consequences (clauses : List (Clause α)) : List α :=
  let parts := clauses.partition isReady
  consequencesFrom parts.2 [] (parts.1.map Clause.conclusion)

end Clause

end DeductiveParsing
