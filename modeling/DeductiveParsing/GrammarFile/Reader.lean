/-
The readers of grammar files, one for each kind of grammar. A reader reports the first fault: those
of the sections in the order of the lines, then missing sections, then those of the entries.

* `readContextFree`, `readWeightedGrammar`, `readTreeAdjoining`: the readers;
* `checkFeet`: which trees may be initial and which auxiliary.
-/
import DeductiveParsing.GrammarFile.Entry
import DeductiveParsing.TreeAdjoining.Grammar

namespace DeductiveParsing.GrammarFile

/-- Reads a context-free grammar. -/
def readContextFree (file : String) : Except Fault ContextFree.Grammar := do
  let sections ← readSections ['N', 'T', 'S', 'P'] file
  let nonterminals ← sections.names 'N'
  let terminals ← sections.names 'T'
  let start ← sections.start
  let p ← sections.need 'P'
  let productions ← p.entries.mapM (readProduction p.line nonterminals)
  return { nonterminals, terminals, start, productions }

/-- Reads a weighted context-free grammar. -/
def readWeightedGrammar {W : Type} [Weight W] (file : String) :
    Except Fault (Weighted.Grammar W) := do
  let sections ← readSections ['N', 'T', 'S', 'P'] file
  let nonterminals ← sections.names 'N'
  let terminals ← sections.names 'T'
  let start ← sections.start
  let p ← sections.need 'P'
  let productions ← p.entries.mapM (readWeighted p.line nonterminals)
  return { nonterminals, terminals, start, productions }

/-! ### Elementary trees -/

/-- The two kinds of elementary trees. -/
inductive TreeKind where
  | initial
  | auxiliary
deriving DecidableEq, Repr

/-- The feet of a tree. -/
def feet (t : Tree) : List Tree := (t.nodes.map Prod.snd).filter Tree.foot

/-- An initial tree has no foot, and an auxiliary tree has one, with the label of its root. -/
def checkFeet (kind : TreeKind) (t : Tree) : Option FootFault :=
  match kind, feet t with
  | .initial, [] => none
  | .initial, _ => some .inInitialTree
  | .auxiliary, [foot] => if foot.label = t.label then none else some .labelMismatch
  | .auxiliary, _ => some .notExactlyOne

/-- Reads one tree behind the trees `known`; its name must be new. -/
def readTree (kind : TreeKind) (line : Nat) (known : List (String × Tree)) (cs : List Char) :
    Except Fault (List (String × Tree)) := do
  let (name, tree) ← readNamedTree line cs
  match checkFeet kind tree with
  | some fault => throw (.badFoot line name fault)
  | none =>
    if (known.lookup name).isSome then throw (.malformedTree line name .declaredTwice)
    return known ++ [(name, tree)]

/-- Reads the trees of a section behind the trees `known`. -/
def readTrees (kind : TreeKind) (s : Section) (known : List (String × Tree)) :
    Except Fault (List (String × Tree)) :=
  s.entries.foldlM (readTree kind s.line) known

/-- Reads a tree-adjoining grammar. The section of the auxiliary trees may be missing. -/
def readTreeAdjoining (file : String) : Except Fault TreeAdjoining.Grammar := do
  let sections ← readSections ['N', 'T', 'S', 'I', 'A'] file
  let nonterminals ← sections.names 'N'
  let terminals ← sections.names 'T'
  let start ← sections.start
  let i ← sections.need 'I'
  let initial ← readTrees .initial i []
  let all ← readTrees .auxiliary ((sections.lookup 'A').getD ⟨0, []⟩) initial
  return {
    nonterminals, terminals, start
    initial := TreeAdjoining.ofNamed initial
    auxiliary := TreeAdjoining.ofNamed (all.drop initial.length) }

end DeductiveParsing.GrammarFile
