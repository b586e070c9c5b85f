/-
Grammars as files, in the form that the readers accept.

* `declaration`: the line of a section with entries in braces;
* `textOfContextFree`, `textOfWeighted`, `textOfTreeAdjoining`: a grammar as text.
-/
import DeductiveParsing.TreeAdjoining.Grammar
import DeductiveParsing.Tree.Printer
import DeductiveParsing.Weighted.Grammar

namespace DeductiveParsing.GrammarFile

/-- A text between double quotes, as it stands. -/
def entryText (s : String) : String := "\"" ++ s ++ "\""

/-- The line of a section with any number of entries. -/
def declaration (name : String) (entries : List String) : String :=
  name ++ " = \x7b" ++ ", ".intercalate (entries.map entryText) ++ "\x7d\n"

/-- The line of the start symbol. -/
def startLine (start : String) : String := "S = " ++ entryText start ++ "\n"

/-- A context-free grammar as text. -/
def textOfContextFree (g : ContextFree.Grammar) : String :=
  "G = <N, T, S, P>\n" ++ declaration "N" g.nonterminals ++ declaration "T" g.terminals ++
    startLine g.start ++ declaration "P" (g.productions.map Production.text)

/-- A weighted grammar as text. -/
def textOfWeighted {W : Type} [Weight W] (g : Weighted.Grammar W) : String :=
  "G = <N, T, S, P>\n" ++ declaration "N" g.nonterminals ++ declaration "T" g.terminals ++
    startLine g.start ++ declaration "P" (g.productions.map Weighted.Production.text)

/-- A tree and its name as text. -/
def namedText (named : String × Tree) : String := named.1 ++ " : " ++ named.2.text

/-- A tree-adjoining grammar as text. -/
def textOfTreeAdjoining (g : TreeAdjoining.Grammar) : String :=
  "G = <N, T, I, A, S>\n" ++ declaration "N" g.nonterminals ++ declaration "T" g.terminals ++
    declaration "I" (g.initial.map namedText) ++ declaration "A" (g.auxiliary.map namedText) ++
    startLine g.start

end DeductiveParsing.GrammarFile
