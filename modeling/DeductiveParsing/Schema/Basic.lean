/-
Parsing schemata: what a grammar, an input and a parsing algorithm give for deduction.

* `Axiom`: items that hold without premises;
* `Schema`: axioms, inference rules and goals;
* `Schema.text`: a schema as text.
-/
import DeductiveParsing.Schema.Rule

namespace DeductiveParsing

/-- Items that hold without premises, under one name. -/
structure Axiom (W : Type) where
  name : String
  items : List (Item W)
deriving Repr, Inhabited

/-- An axiom as text. -/
def Axiom.describe {W : Type} [Weight W] (a : Axiom W) : String :=
  inference a.name "" (" ".intercalate (a.items.map Item.text))

/-- The axioms, rules and goals of a deduction. -/
structure Schema (W : Type) where
  axioms : List (Axiom W)
  rules : List (Rule W)
  goals : List (Item W)

namespace Schema

variable {W : Type}

/-- A schema in which no goal is listed twice. -/
def make (axioms : List (Axiom W)) (rules : List (Rule W)) (goals : List (Item W)) : Schema W :=
  ⟨axioms, rules, Item.distinctForms goals⟩

/-- A schema as text: the axioms and the rules with blank lines between them, then the goals. -/
def text [Weight W] (s : Schema W) : String :=
  let parts := s.axioms.map Axiom.describe ++ s.rules.map Rule.describe
  String.join (parts.map (· ++ "\n\n")) ++ "goals:" ++
    String.join (s.goals.map fun g => " " ++ g.text)

end Schema

end DeductiveParsing
