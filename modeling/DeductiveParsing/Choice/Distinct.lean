/-
Lists without repetitions.

* `distinctBy`: the first element for each value of a key;
* `distinct`: the first occurrence of each element.
-/

namespace DeductiveParsing.Choice

/-- The elements of a list whose key no earlier element has. -/
def distinctBy {α β : Type} [DecidableEq β] (key : α → β) : List α → List α
  | [] => []
  | x :: xs => x :: (distinctBy key xs).filter fun y => key y ≠ key x

/-- The first occurrences of the elements of a list. -/
def distinct {α : Type} [DecidableEq α] (xs : List α) : List α := distinctBy id xs

end DeductiveParsing.Choice
