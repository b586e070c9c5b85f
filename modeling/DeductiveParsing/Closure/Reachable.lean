/-
Reachability along edges. What lies on the frontier is taken up one by one; its edges are followed
and then left out, so every edge is followed at most once.

* `reachFrom`: what can be reached from a frontier, with what is known already;
* `reachable`: what can be reached along edges in any number of steps;
* `length_partition`: why the search comes to an end.
-/

namespace DeductiveParsing

/-- A partition has as many elements as the list. -/
theorem length_partition {α : Type} (p : α → Bool) (xs : List α) :
    (xs.partition p).1.length + (xs.partition p).2.length = xs.length := by
  rw [List.partition_eq_filter_filter]
  induction xs with
  | nil => rfl
  | cons x xs ih => by_cases h : p x <;> simp_all [Nat.add_right_comm, ← Nat.add_assoc]

/-- The elements of `known` and those that can be reached from the frontier without passing through
`known`. The edges of what is known are not among `edges` any more. -/
def reachFrom {α : Type} [DecidableEq α] (edges : List (α × α)) (known : List α) :
    List α → List α
  | [] => known
  | x :: rest =>
    if x ∈ known then reachFrom edges known rest
    else
      let parts := edges.partition fun e => e.1 = x
      reachFrom parts.2 (x :: known) (parts.1.map Prod.snd ++ rest)
termination_by frontier => edges.length + frontier.length
decreasing_by
  · simp
  · have h := length_partition (fun e => decide (e.1 = x)) edges
    simp only [List.length_append, List.length_map, List.length_cons]
    omega

/-- What can be reached from the elements of `start` in any number of steps, each of them once. -/
def reachable {α : Type} [DecidableEq α] (edges : List (α × α)) (start : List α) : List α :=
  reachFrom edges [] start

end DeductiveParsing
