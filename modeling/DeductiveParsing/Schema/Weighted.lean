/-
The parsing schemata for weighted grammars in Chomsky normal form.

* `weightedCyk`: spans with the probabilities of their best derivations;
* `weightedAStar`: spans with the costs of their best derivations and an estimate of the rest; spans
  that no complete derivation can use are left out.
-/
import DeductiveParsing.Schema.ContextFree

namespace DeductiveParsing.Schema

open Weighted

variable {W : Type} [Weight W]

/-- An axiom of a weighted production. -/
def weightedFact (p : Weighted.Production W) (i j : Nat) (weight : W) : Axiom W :=
  fact ("scan " ++ p.text)
    (WeightedRule.item p.production.lhs i j weight [Tree.ofProduction p.production])

/-- The axioms of a production for parsing with probabilities. -/
def probableAxioms (tokens : List String) (p : Weighted.Production W) : List (Axiom W) :=
  match p.production.isLexical, p.production.rhsNames with
  | true, [a] => (placesOf tokens a).map fun i => weightedFact p i 1 p.weight
  | _, _ =>
    if p.production.isEmpty && tokens.isEmpty then [weightedFact p 0 0 p.weight] else []

/-- The schema of parsing by spans with probabilities. -/
def weightedCyk (g : Weighted.Grammar W) (tokens : List String) : Except Fault (Schema W) := do
  require g.unweighted.isChomskyNormal (.notChomskyNormal .weightedCyk)
  let binary := g.productions.filter fun p => p.production.isBinary
  return make
    (g.productions.flatMap (probableAxioms tokens))
    (binary.map fun p => .weighted (.product p))
    [wholeSpan g.start tokens]

/-- The axioms of a production for parsing with costs. -/
def costAxioms (estimates : Estimates W) (tokens : List String) (p : Weighted.Production W) :
    List (Axiom W) :=
  let cost := Weight.cost p.weight
  match p.production.isLexical, p.production.rhsNames with
  | true, [a] => (placesOf tokens a).filterMap fun i =>
    (estimates.outside? p.production.lhs i 1).map fun around =>
      weightedFact p i (i + 1) (Weight.add cost around)
  | _, _ => if p.production.isEmpty && tokens.isEmpty then [weightedFact p 0 0 cost] else []

/-- The schema of parsing with costs and estimates. -/
def weightedAStar (g : Weighted.Grammar W) (tokens : List String) : Except Fault (Schema W) := do
  require g.unweighted.isChomskyNormal (.notChomskyNormal .weightedAStar)
  let estimates := Estimates.ofGrammar g tokens.length
  let binary := g.productions.filter fun p => p.production.isBinary
  return make
    (g.productions.flatMap (costAxioms estimates tokens))
    (binary.map fun p => .weighted (.guided p estimates))
    [wholeSpan g.start tokens]

end DeductiveParsing.Schema
