/-
Which entries of a chart contribute to given ones: all that can be reached through the antecedents
of recorded derivations.

* `reach`: the search with a stack;
* `usefulPositions`: the positions that can be reached, in increasing order.
-/
import DeductiveParsing.Deduction.Chart

namespace DeductiveParsing.Deduction

/-- The number of positions that are not marked. -/
def unmarked (marks : Array Bool) : Nat := marks.toList.count false

/-- Marking a position that is not marked leaves fewer that are not. -/
theorem count_set_true_lt {marks : List Bool} {i : Nat} (h : marks[i]? = some false) :
    (marks.set i true).count false < marks.count false := by
  induction marks generalizing i with
  | nil => simp at h
  | cons b bs ih =>
    cases i with
    | zero =>
      simp only [List.getElem?_cons_zero, Option.some.injEq] at h
      subst h
      simp
    | succ i =>
      simp only [List.getElem?_cons_succ] at h
      have := ih h
      simp only [List.set_cons_succ, List.count_cons]
      omega

/-- The same of an array. -/
theorem unmarked_setIfInBounds_lt {marks : Array Bool} {i : Nat} (h : marks[i]? = some false) :
    unmarked (marks.setIfInBounds i true) < unmarked marks := by
  rw [unmarked, unmarked, Array.toList_setIfInBounds]
  exact count_set_true_lt (by rw [Array.getElem?_toList]; exact h)

/-- Marks all positions that can be reached from those on a stack through positions that are not
marked yet. -/
def reach (next : Nat → List Nat) (stack : List Nat) (marks : Array Bool) : Array Bool :=
  match stack with
  | [] => marks
  | i :: rest =>
    match _h : marks[i]? with
    | some false => reach next (next i ++ rest) (marks.setIfInBounds i true)
    | _ => reach next rest marks
termination_by (unmarked marks, stack.length)
decreasing_by
  · exact Prod.Lex.left _ _ (unmarked_setIfInBounds_lt _h)
  · exact Prod.Lex.right _ (by simp)

variable {W : Type}

/-- The antecedents of the derivations of an entry. -/
def antecedentsOf (c : Chart W) (i : Nat) : List Nat :=
  match c.entries[i]? with
  | some e => e.derivations.flatMap Derivation.antecedents
  | none => []

/-- The positions that contribute to the positions `goals`, in increasing order. -/
def usefulPositions (c : Chart W) (goals : List Nat) : List Nat :=
  let marks := reach (antecedentsOf c) goals (Array.replicate c.size false)
  (List.range c.size).filter fun i => marks[i]? == some true

end DeductiveParsing.Deduction
