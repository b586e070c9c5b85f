/-
What an inference rule yields when it fires.

* `Firing`: the consequences and the name under which the rule fired;
* `Firing.eitherOrder?`: a rule with two premises tried on both orders of the antecedents;
* `inference`: premises, side condition and conclusion as text.
-/
import DeductiveParsing.Item.Basic

namespace DeductiveParsing

/-- The name under which a rule fired, and its consequences. -/
structure Firing (W : Type) where
  name : String
  items : List (Item W)
deriving Repr, Inhabited

namespace Firing

variable {W : Type}

/-- A firing with any number of consequences; without any the rule did not fire. -/
def ofItems (name : String) (items : List (Item W)) : Option (Firing W) :=
  if items.isEmpty then none else some ⟨name, items⟩

/-- A firing with one consequence. -/
def one (name : String) (item : Item W) : Option (Firing W) := some ⟨name, [item]⟩

/-- The firing on two antecedents, or else on the two in the other order. -/
def eitherOrder? (fire : Item W → Item W → Option (Firing W)) (x y : Item W) : Option (Firing W) :=
  match fire x y with
  | some f => some f
  | none => fire y x

end Firing

/-- An inference rule as text: the premises above a line, which the side condition follows, and the
conclusion below it. -/
def inference (premises condition conclusion : String) : String :=
  let side := if condition.isEmpty then "" else " " ++ condition
  premises ++ "\n______" ++ side ++ "\n" ++ conclusion

end DeductiveParsing
