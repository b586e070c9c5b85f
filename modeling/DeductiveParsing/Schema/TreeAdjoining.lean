/-
The parsing schemata for tree-adjoining grammars.

* `treeCyk`: nodes from the bottom up, for grammars whose nodes have at most two children;
* `treeEarley`: walks around the elementary trees from the left.
-/
import DeductiveParsing.Schema.ContextFree

namespace DeductiveParsing.Schema

open TreeAdjoining

variable {W : Type}

/-- The axioms of a node: every place for the empty string, and the places of a terminal. -/
def leafAxioms (g : Grammar) (tokens : List String) (tree : String) (placed : Address × Tree) :
    List (Axiom W) :=
  let (node, t) := placed
  let span (i j : Nat) : Item W := NodeSpan.toItem
    { tree, node, settled := true, start := i, gap := .absent, stop := j }
  if !t.isLeaf then []
  else if t.isEpsilon then
    (List.range (tokens.length + 1)).map fun i => fact "eps-scan" (span i i)
  else if g.isTerminal t.label then
    (placesOf tokens t.label).map fun i => fact ("lex-scan " ++ t.label) (span i (i + 1))
  else []

/-- The axioms of a foot: a gap between any two places. -/
def footAxioms (tokens : List String) (named : String × Tree) : List (Axiom W) :=
  match named.2.footAddress? with
  | none => []
  | some foot =>
    (List.range (tokens.length + 1)).flatMap fun i =>
      (List.range' i (tokens.length + 1 - i)).map fun j =>
        fact "foot-predict" <| NodeSpan.toItem
          { tree := named.1, node := foot, settled := true, start := i,
            gap := ⟨some i, some j⟩, stop := j }

/-- The schema of parsing with trees from the bottom up. -/
def treeCyk (g : Grammar) (tokens : List String) : Except Fault (Schema W) := do
  match g.unbinarized? with
  | some tree => throw (.notBinarized .treeCyk tree)
  | none =>
    let leaves := g.trees.flatMap fun (name, t) => t.nodes.flatMap (leafAxioms g tokens name)
    let fillers := g.substitutionNodes.map fun (tree, node) =>
      Rule.treeCyk (.substitute g tree node)
    let goal (named : String × Tree) : Item W := NodeSpan.toItem
      { tree := named.1, node := .root, settled := true, start := 0, gap := .absent,
        stop := tokens.length }
    return make
      (leaves ++ g.auxiliary.flatMap (footAxioms tokens))
      ([.treeCyk (.moveUnary g), .treeCyk (.moveBinary g), .treeCyk .nullAdjoin] ++ fillers ++
        [.treeCyk (.adjoin g)])
      (g.startTrees.map goal)

/-- The rules of parsing with trees from the left that do not name a node. -/
def walkRules (g : Grammar) (tokens : List String) : List TreeEarleyRule :=
  [.scanToken g tokens, .scanEmpty g, .predictAdjoinable g, .predictNoAdjunction g,
    .predictAdjoined g, .completeFoot g, .completeNode g, .adjoin g, .moveDown g, .moveRight g,
    .moveUp g, .predictSubstitution g]

/-- The schema of parsing with trees from the left. -/
def treeEarley (g : Grammar) (tokens : List String) : Except Fault (Schema W) :=
  let fillers := g.substitutionNodes.map fun (tree, node) =>
    TreeEarleyRule.substitute g tree node
  let goal (named : String × Tree) : Item W :=
    { NodeVisit.begin named.1 .root .rightAbove 0 with stop := tokens.length }.toItem []
  .ok <| make
    (g.startTrees.map fun (name, t) =>
      fact "initialize" ((NodeVisit.begin name .root .leftAbove 0).toItem [t]))
    ((walkRules g tokens ++ fillers).map Rule.treeEarley)
    (g.startTrees.map goal)

end DeductiveParsing.Schema
