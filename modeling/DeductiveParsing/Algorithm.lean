/-
Running a parsing algorithm: from a grammar and an input to a schema, and from there to an outcome.

* `Algorithm.policy`: how an algorithm treats items that are derived again;
* `Algorithm.compile`: the schema of an algorithm, after the grammar has been converted to the kind
  that it works on;
* `Algorithm.parse`: the outcome.
-/
import DeductiveParsing.Deduction.Outcome
import DeductiveParsing.GrammarFile.File
import DeductiveParsing.Schema.TreeAdjoining
import DeductiveParsing.Schema.Weighted

namespace DeductiveParsing

namespace Algorithm

variable {W : Type} [Weight W]

/-- Probabilities are maximized, costs minimized, and otherwise all derivations are kept. -/
def policy : Algorithm → Policy
  | weightedCyk => .higherWins
  | weightedAStar => .lowerWins
  | _ => .accumulate

/-- A grammar as a context-free one, if it is not a tree-adjoining one. -/
def asContextFree (a : Algorithm) : FormalGrammar W → Except Schema.Fault ContextFree.Grammar
  | .contextFree g => .ok g
  | .weighted g => .ok g.unweighted
  | .treeAdjoining _ => .error (.wrongFormalism a .treeAdjoining)

/-- A grammar as a weighted one, if it is not a tree-adjoining one. -/
def asWeighted (a : Algorithm) : FormalGrammar W → Except Schema.Fault (Weighted.Grammar W)
  | .contextFree g => .ok (.uniform g)
  | .weighted g => .ok g
  | .treeAdjoining _ => .error (.wrongFormalism a .treeAdjoining)

/-- A grammar as a tree-adjoining one. -/
def asTreeAdjoining : FormalGrammar W → TreeAdjoining.Grammar
  | .contextFree g => .ofContextFree g
  | .weighted g => .ofContextFree g.unweighted
  | .treeAdjoining g => g

/-- The schema of an algorithm for a grammar and the tokens of an input. -/
def compileTokens (a : Algorithm) (g : FormalGrammar W) (tokens : List String) :
    Except Schema.Fault (Schema W) :=
  match a with
  | topDown => do Schema.topDown (← asContextFree a g) tokens
  | shiftReduce => do Schema.shiftReduce (← asContextFree a g) tokens
  | earley => do Schema.earley (← asContextFree a g) tokens
  | leftCorner => do Schema.leftCorner (← asContextFree a g) tokens
  | cyk => do Schema.cyk (← asContextFree a g) tokens
  | cykExtended => do Schema.cykExtended (← asContextFree a g) tokens
  | cykGeneral => do Schema.cykGeneral (← asContextFree a g) tokens
  | unger => do Schema.unger (← asContextFree a g) tokens
  | lr => do Schema.lr (← asContextFree a g) tokens
  | weightedCyk => do Schema.weightedCyk (← asWeighted a g) tokens
  | weightedAStar => do Schema.weightedAStar (← asWeighted a g) tokens
  | treeCyk => Schema.treeCyk (asTreeAdjoining g) tokens
  | treeEarley => Schema.treeEarley (asTreeAdjoining g) tokens

/-- The schema of an algorithm for a grammar and an input, whose tokens stand between blanks. -/
def compile (a : Algorithm) (g : FormalGrammar W) (input : String) :
    Except Schema.Fault (Schema W) :=
  a.compileTokens g (Text.wordsOf input)

/-- Reads the identifier of an algorithm. -/
def read (name : String) : Except Schema.Fault Algorithm :=
  match ofId? name with
  | some a => .ok a
  | none => .error (.unknownAlgorithm name)

/-- Why there is no outcome: there is no schema, or the run does not end. -/
inductive Failure where
  | schema (fault : Schema.Fault)
  | deduction (failure : Deduction.Failure)
deriving DecidableEq, Repr

/-- The wording of a failure. -/
def Failure.message : Failure → String
  | .schema fault => fault.message
  | .deduction failure => failure.message

/-- The outcome of an algorithm for a grammar and an input. -/
def parse (a : Algorithm) (g : FormalGrammar W) (settings : Settings) (input : String) :
    Except Failure (Outcome W) :=
  match a.compile g input with
  | .error fault => .error (.schema fault)
  | .ok schema =>
    match Deduction.deduce settings (some schema) with
    | .error failure => .error (.deduction failure)
    | .ok outcome => .ok outcome

end Algorithm

end DeductiveParsing
