/-
The parsing algorithms, the formalisms of the grammars they work on, and the reasons for which a
grammar does not suit an algorithm.

* `Formalism`: the three kinds of grammars;
* `Algorithm`: the parsing algorithms, each with its identifier;
* `Schema.Fault`: why there is no schema, with `Fault.message` for the wording.
-/
import DeductiveParsing.Text.Quoted

namespace DeductiveParsing

/-- The kinds of grammars. -/
inductive Formalism where
  | contextFree
  | weighted
  | treeAdjoining
deriving DecidableEq, Repr

/-- The word for a kind of grammars, which is also the extension of its files. -/
def Formalism.text : Formalism → String
  | .contextFree => "cfg"
  | .weighted => "pcfg"
  | .treeAdjoining => "tag"

/-- The parsing algorithms. -/
inductive Algorithm where
  | topDown
  | shiftReduce
  | earley
  | leftCorner
  | cyk
  | cykExtended
  | cykGeneral
  | unger
  | lr
  | weightedCyk
  | weightedAStar
  | treeCyk
  | treeEarley
deriving DecidableEq, Repr

namespace Algorithm

/-- All algorithms, in the order in which they are listed. -/
def all : List Algorithm :=
  [topDown, shiftReduce, earley, leftCorner, cyk, cykExtended, cykGeneral, unger, lr, weightedCyk,
    weightedAStar, treeCyk, treeEarley]

/-- The identifier of an algorithm. -/
def id : Algorithm → String
  | topDown => "cfg-topdown"
  | shiftReduce => "cfg-shiftreduce"
  | earley => "cfg-earley"
  | leftCorner => "cfg-leftcorner"
  | cyk => "cfg-cyk"
  | cykExtended => "cfg-cyk-extended"
  | cykGeneral => "cfg-cyk-general"
  | unger => "cfg-unger"
  | lr => "cfg-lr-k"
  | weightedCyk => "pcfg-cyk"
  | weightedAStar => "pcfg-astar"
  | treeCyk => "tag-cyk"
  | treeEarley => "tag-earley"

/-- The algorithm of an identifier. -/
def ofId? (name : String) : Option Algorithm := all.find? fun a => a.id == name

/-- The kind of grammars that an algorithm works on. -/
def formalism : Algorithm → Formalism
  | weightedCyk => .weighted
  | weightedAStar => .weighted
  | treeCyk => .treeAdjoining
  | treeEarley => .treeAdjoining
  | _ => .contextFree

end Algorithm

/-- Why there is no schema. -/
inductive Schema.Fault where
  | notChomskyNormal (algorithm : Algorithm)
  | notTwoForm (algorithm : Algorithm)
  | emptyProductions (algorithm : Algorithm)
  | leftRecursion (algorithm : Algorithm)
  | notBinarized (algorithm : Algorithm) (tree : String)
  | wrongFormalism (algorithm : Algorithm) (found : Formalism)
  | unknownAlgorithm (name : String)
deriving DecidableEq, Repr

/-- The wording of a fault. -/
def Schema.Fault.message : Schema.Fault → String
  | .notChomskyNormal a => "grammar must be in Chomsky normal form for " ++ a.id
  | .notTwoForm a => "grammar must be in canonical 2-form for " ++ a.id
  | .emptyProductions a => "grammar contains ε-productions, which " ++ a.id ++ " cannot handle"
  | .leftRecursion a => "grammar is left recursive, which " ++ a.id ++ " cannot handle"
  | .notBinarized a tree => "tree " ++ tree ++ " is not binarized, which " ++ a.id ++ " requires"
  | .wrongFormalism a found =>
    a.id ++ " needs a " ++ a.formalism.text ++ " grammar but got a " ++ found.text
  | .unknownAlgorithm name =>
    "unknown algorithm " ++ Text.quoted name ++ ", expected one of: " ++
      ", ".intercalate (Algorithm.all.map Algorithm.id)

/-- Fails unless a condition holds. -/
def Schema.require (condition : Bool) (fault : Schema.Fault) : Except Schema.Fault Unit :=
  if condition then .ok () else .error fault

end DeductiveParsing
