/-
Left-corner parsing. An item `[Γ,Δ,Λ]` has three stacks: `Γ` is what has been completed above the
rest of the input, `Δ` what is predicted, with a mark behind the rest of every production that has
been begun, and `Λ` holds the left-hand sides of these productions.

* `LeftCornerRule.reduce`: a completed symbol begins a production;
* `LeftCornerRule.remove`: a completed symbol is the one that is predicted;
* `LeftCornerRule.move`: the mark is reached, so the left-hand side is completed.
-/
import DeductiveParsing.Inference.Firing

namespace DeductiveParsing

/-- The rules of left-corner parsing. -/
inductive LeftCornerRule where
  | reduce (production : Production)
  | remove
  | move
deriving DecidableEq, Repr

namespace LeftCornerRule

variable {W : Type}

/-- The mark behind the rest of a production that has been begun. -/
def mark : String := "$"

/-- The number of premises. -/
def arity : LeftCornerRule → Nat
  | _ => 1

/-- The name of a rule. -/
def name : LeftCornerRule → String
  | reduce p => "reduce " ++ p.text
  | remove => "remove"
  | move => "move"

/-- A rule as text. -/
def describe : LeftCornerRule → String
  | reduce p =>
    inference ("[" ++ p.rhsNames.headD epsilon ++ "α,Bβ,ɣ]") (p.text ++ ", B ≠ $")
      ("[α," ++ " ".intercalate (p.rhsNames.drop 1) ++ " $ Bβ," ++ p.lhs ++ "ɣ]")
  | remove => inference "[Xα,Xβ,ɣ]" "" "[α,β,ɣ]"
  | move => inference "[α,$β,Aɣ]" "" "[Aα,β,ɣ]"

/-- The item of three stacks. -/
def item (completed predicted begun : List String) : Item W :=
  .ofForm [.sequence completed, .sequence predicted, .sequence begun]

/-- The consequences for an antecedent. -/
def fire (rule : LeftCornerRule) : List (Item W) → Option (Firing W)
  | [premise] => do
    let completed ← premise.sequence? 0
    let predicted ← premise.sequence? 1
    let begun ← premise.sequence? 2
    match rule, completed, predicted, begun with
    | reduce p, x :: rest, b :: expected, _ =>
      if b ≠ mark ∧ p.rhsNames.head? = some x then
        Firing.one (name (reduce p))
          (item rest (p.rhsNames.drop 1 ++ mark :: b :: expected) (p.lhs :: begun))
      else none
    | remove, x :: rest, y :: expected, _ =>
      if x = y ∧ x ≠ mark then Firing.one (name remove) (item rest expected begun) else none
    | move, _, m :: expected, a :: others =>
      if m = mark then Firing.one (name move) (item (a :: completed) expected others) else none
    | _, _, _, _ => none
  | _ => none

end LeftCornerRule

end DeductiveParsing
