/-
Weighted context-free grammars, whose productions carry a probability.

* `Weighted.Grammar`: a context-free grammar with a weight on every production;
* `Weighted.Grammar.unweighted`: the grammar without the weights;
* `Weighted.Grammar.uniform`: the grammar in which the productions of a name share alike.
-/
import DeductiveParsing.ContextFree.Grammar
import DeductiveParsing.Weight.Basic

namespace DeductiveParsing.Weighted

/-- A production with a probability. -/
structure Production (W : Type) where
  production : DeductiveParsing.Production
  weight : W
deriving Repr, Inhabited

/-- A weighted production as text. -/
def Production.text {W : Type} [Weight W] (p : Production W) : String :=
  Weight.text p.weight ++ " : " ++ p.production.text

/-- A weighted context-free grammar. -/
structure Grammar (W : Type) where
  nonterminals : List String
  terminals : List String
  start : String
  productions : List (Production W)
deriving Repr, Inhabited

variable {W : Type}

/-- The grammar without the weights. -/
def Grammar.unweighted (g : Grammar W) : ContextFree.Grammar where
  nonterminals := g.nonterminals
  terminals := g.terminals
  start := g.start
  productions := g.productions.map Production.production

/-- The grammar in which each production of a name has the same share of the probability. -/
def Grammar.uniform [Weight W] (g : ContextFree.Grammar) : Grammar W where
  nonterminals := g.nonterminals
  terminals := g.terminals
  start := g.start
  productions := g.productions.map fun p => ⟨p, Weight.share (g.productionsOf p.lhs).length⟩

end DeductiveParsing.Weighted
