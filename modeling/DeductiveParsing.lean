import DeductiveParsing.Main
import DeductiveParsing.Proofs.Choice
import DeductiveParsing.Proofs.Closure.Reachable
import DeductiveParsing.Proofs.Closure.Horn
import DeductiveParsing.Proofs.Closure.Sweeps
import DeductiveParsing.Proofs.Rewriting
import DeductiveParsing.Proofs.Text.Numeral
import DeductiveParsing.Proofs.ContextFree.Derivation
import DeductiveParsing.Proofs.ContextFree.Nullable
import DeductiveParsing.Proofs.ContextFree.Beginnings
import DeductiveParsing.Proofs.ContextFree.LeftRecursion
import DeductiveParsing.Proofs.ContextFree.Earley
import DeductiveParsing.Proofs.Inference.Shape
import DeductiveParsing.Proofs.Inference.Orders
import DeductiveParsing.Proofs.Deduction.Agenda
import DeductiveParsing.Proofs.Deduction.Chart
import DeductiveParsing.Proofs.Deduction.Growth
import DeductiveParsing.Proofs.Deduction.Saturation
import DeductiveParsing.Proofs.Deduction.Run
import DeductiveParsing.Proofs.Deduction.Closure
import DeductiveParsing.Proofs.Deduction.Provenance
import DeductiveParsing.Proofs.Deduction.Termination
import DeductiveParsing.Proofs.Deduction.Forests
import DeductiveParsing.Proofs.Item.Forest
import DeductiveParsing.Proofs.Deduction.Exhaustion
import DeductiveParsing.Proofs.Deduction.Budget
import DeductiveParsing.Proofs.Deduction.Replacement
import DeductiveParsing.Proofs.Deduction.Stock
import DeductiveParsing.Proofs.Inference.Directed
import DeductiveParsing.Proofs.Deduction.Consequences
import DeductiveParsing.Proofs.Deduction.Beginning
import DeductiveParsing.Proofs.Lr.States
import DeductiveParsing.Proofs.Lr.Automaton
import DeductiveParsing.Proofs.Lr.Follow
import DeductiveParsing.Proofs.Lr.Table
import DeductiveParsing.Proofs.Lr.Recognition
import DeductiveParsing.Proofs.Lr.Lookahead
import DeductiveParsing.Proofs.Lr.Reduction
import DeductiveParsing.Proofs.Tree.Nodes
import DeductiveParsing.Proofs.Tree.Frontier
import DeductiveParsing.Proofs.Tree.Surgery
import DeductiveParsing.Proofs.Tree.Terms
import DeductiveParsing.Proofs.Tree.Text
import DeductiveParsing.Proofs.Tree.Size
import DeductiveParsing.Proofs.TopDown.Rules
import DeductiveParsing.Proofs.TopDown.Divergence
import DeductiveParsing.Proofs.TopDown.Termination
import DeductiveParsing.Proofs.GrammarFile.TreeAdjoining
import DeductiveParsing.Proofs.TreeAdjoining.Derivation
import DeductiveParsing.Proofs.TreeAdjoining.Reads
import DeductiveParsing.Proofs.TreeAdjoining.Nodes
import DeductiveParsing.Proofs.TreeAdjoining.Declared
import DeductiveParsing.Proofs.TreeAdjoining.Anchors
import DeductiveParsing.Proofs.TreeAdjoining.Cyk
import DeductiveParsing.Proofs.TreeAdjoining.Earley.Rules
import DeductiveParsing.Proofs.TreeAdjoining.Earley.Visits
import DeductiveParsing.Proofs.TreeAdjoining.Earley.Parts
import DeductiveParsing.Proofs.TreeAdjoining.Earley.Recognition
import DeductiveParsing.Proofs.TreeAdjoining.Earley.Divergence
import DeductiveParsing.Proofs.TreeAdjoining.Earley.Termination
import DeductiveParsing.Proofs.TreeAdjoining.Earley.Trees
import DeductiveParsing.Proofs.TreeAdjoining.Agreement
import DeductiveParsing.Proofs.TreeAdjoining.ContextFree
import DeductiveParsing.Proofs.Tree.Substitution
import DeductiveParsing.Proofs.Tree.Sites
import DeductiveParsing.Proofs.Tree.Filling
import DeductiveParsing.Proofs.Deduction.Composition
import DeductiveParsing.Proofs.GrammarFile.ContextFree
import DeductiveParsing.Proofs.ContextFree.ParseTrees
import DeductiveParsing.Proofs.ContextFree.Names
import DeductiveParsing.Proofs.ContextFree.EarleyForests
import DeductiveParsing.Proofs.Cyk.Rules
import DeductiveParsing.Proofs.Cyk.Schemas
import DeductiveParsing.Proofs.Cyk.Forests
import DeductiveParsing.Proofs.Cyk.Recognition
import DeductiveParsing.Proofs.Cyk.ParseTrees
import DeductiveParsing.Proofs.Cyk.Spans
import DeductiveParsing.Proofs.Cyk.NormalForm
import DeductiveParsing.Proofs.Cyk.General
import DeductiveParsing.Proofs.LeftCorner.Rules
import DeductiveParsing.Proofs.LeftCorner.Recognition
import DeductiveParsing.Proofs.LeftCorner.Mark
import DeductiveParsing.Proofs.TopDown.Forests
import DeductiveParsing.Proofs.ContextFree.Termination
import DeductiveParsing.Proofs.ContextFree.NonterminalInput
import DeductiveParsing.Proofs.ContextFree.Agreement
import DeductiveParsing.Proofs.Deduction.Moments
import DeductiveParsing.Proofs.Deduction.Records
import DeductiveParsing.Proofs.TopDown.Recognition
import DeductiveParsing.Proofs.ShiftReduce.Recognition
import DeductiveParsing.Proofs.Unger.Rules
import DeductiveParsing.Proofs.Unger.Recognition
import DeductiveParsing.Proofs.Weight.Exact
import DeductiveParsing.Proofs.GrammarFile.Weighted
import DeductiveParsing.Proofs.Weighted.Parses
import DeductiveParsing.Proofs.Weighted.Rules
import DeductiveParsing.Proofs.Weighted.Weighing
import DeductiveParsing.Proofs.Weighted.Termination
import DeductiveParsing.Proofs.Weighted.Viterbi
import DeductiveParsing.Proofs.Weighted.Estimates
import DeductiveParsing.Proofs.Weighted.Costs
import DeductiveParsing.Proofs.Weighted.AStar
import DeductiveParsing.Proofs.Weighted.ZeroProbability
import DeductiveParsing.Proofs.Inference.Weights
import DeductiveParsing.Proofs.Deduction.Fixpoint
import DeductiveParsing.Proofs.Deduction.FirstAxioms
import DeductiveParsing.Proofs.Deduction.SkippedAxioms
import DeductiveParsing.Proofs.Weighted.Lengths
import DeductiveParsing.Proofs.Weighted.Agreement
import DeductiveParsing.Proofs.Text.Blank
import DeductiveParsing.Proofs.GrammarFile.Sections
import DeductiveParsing.Proofs.GrammarFile.Entries
import DeductiveParsing.Proofs.Decimal.Text
import DeductiveParsing.Proofs.GrammarFile.RoundTrip
import DeductiveParsing.Proofs.GrammarFile.TreeRoundTrip
import DeductiveParsing.Proofs.LeftCorner.Termination
import DeductiveParsing.Proofs.Unger.Termination
import DeductiveParsing.Proofs.TreeAdjoining.Termination
import DeductiveParsing.Proofs.Termination
import DeductiveParsing.Proofs.Deduction.Limit
import DeductiveParsing.Proofs.Inference.Permutation
import DeductiveParsing.Proofs.Weighted.OpenTrees
import DeductiveParsing.Proofs.Weighted.Finality
import DeductiveParsing.Proofs.Weighted.ExactEstimates
import DeductiveParsing.Proofs.Deduction.Useful
import DeductiveParsing.Proofs.ContextFree.Filling
import DeductiveParsing.Proofs.Unger.Partitions
import DeductiveParsing.Proofs.Deduction.Positions
import DeductiveParsing.Proofs.GrammarFile.Feet
import DeductiveParsing.Proofs.TreeAdjoining.Sites
