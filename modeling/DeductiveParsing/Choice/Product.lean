/-
Choices from lists.

* `choices`: one element from each of several lists;
* `orderings`: all elements of one list, in every order;
* `walks`: the orders in which every element can follow the ones before it;
* `selections`: a given number of elements of one list, in their order.
-/

namespace DeductiveParsing.Choice

/-- All ways to take one element from each list. The choice from the first list varies fastest. -/
def choices {α : Type} : List (List α) → List (List α)
  | [] => [[]]
  | xs :: rest => (choices rest).flatMap fun chosen => xs.map (· :: chosen)

/-- Every element of a list with the elements before and behind it. -/
def splits {α : Type} : List α → List (α × List α)
  | [] => []
  | x :: xs => (x, xs) :: (splits xs).map fun (y, rest) => (y, x :: rest)

/-- All orders of the first `n` elements taken from a list, in lexicographic order of the places
that the elements have in it. -/
def arrangements {α : Type} : Nat → List α → List (List α)
  | 0, _ => [[]]
  | n + 1, xs => (splits xs).flatMap fun (x, rest) => (arrangements n rest).map (x :: ·)

/-- All orders of the elements of a list, in lexicographic order of their places. -/
def orderings {α : Type} (xs : List α) : List (List α) := arrangements xs.length xs

/-- The orders of the first `n` elements taken from a list in which each element leads from the
state that the ones before it have led to into a next one, in lexicographic order of the places. -/
def walks {σ α : Type} (step : σ → α → Option σ) : Nat → σ → List α → List (List α)
  | 0, _, _ => [[]]
  | n + 1, state, xs => (splits xs).flatMap fun (x, rest) =>
    match step state x with
    | none => []
    | some next => (walks step n next rest).map (x :: ·)

/-- All ways to take `k` elements of a list in their order while leaving out at most `spare` of
those before the last one taken, in lexicographic order of the places. -/
def selectionsWithin {α : Type} (spare : Nat) : Nat → List α → List (List α)
  | 0, _ => [[]]
  | _ + 1, [] => []
  | k + 1, x :: xs =>
    (selectionsWithin spare k xs).map (x :: ·) ++
      match spare with
      | 0 => []
      | spare + 1 => selectionsWithin spare (k + 1) xs

/-- All ways to take `k` elements of a list in their order, in lexicographic order of the places.
Not more elements may be left out than the list has over `k`; the search gives up a way at once
when it would leave out more. -/
def selections {α : Type} (k : Nat) (xs : List α) : List (List α) :=
  if xs.length < k then [] else selectionsWithin (xs.length - k) k xs

end DeductiveParsing.Choice
