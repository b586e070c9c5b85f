/-
Context-free grammars.

* `ContextFree.Grammar`: declared symbols, a start symbol and productions in their order;
* `Grammar.nullables`: the names that derive the empty string;
* `Grammar.hasLeftRecursion`: whether a name derives a form that begins with itself;
* `Grammar.isChomskyNormal`, `Grammar.isTwoForm`: the two normal forms.
-/
import DeductiveParsing.Choice.Distinct
import DeductiveParsing.Closure.Horn
import DeductiveParsing.ContextFree.Production

namespace DeductiveParsing.ContextFree

/-- A context-free grammar. -/
structure Grammar where
  nonterminals : List String
  terminals : List String
  start : String
  productions : List Production
deriving DecidableEq, Repr, Inhabited

namespace Grammar

/-- Whether a name is declared as a nonterminal. -/
def isNonterminal (g : Grammar) (name : String) : Bool := g.nonterminals.contains name

/-- Whether a name is declared as a terminal. -/
def isTerminal (g : Grammar) (name : String) : Bool := g.terminals.contains name

/-- The productions of a name, in their order. -/
def productionsOf (g : Grammar) (name : String) : List Production :=
  g.productions.filter (·.lhs == name)

/-- The left-hand sides of the productions. -/
def lhsNames (g : Grammar) : List String := g.productions.map Production.lhs

/-- Whether some production has an empty right-hand side. -/
def hasEmptyProduction (g : Grammar) : Bool := g.productions.any Production.isEmpty

/-! ### Names that derive the empty string -/

/-- Whether all symbols are nonterminals that `nullable` contains. -/
def allNullable (nullable : List String) (symbols : List Symbol) : Bool :=
  symbols.all fun
    | .terminal _ => false
    | .nonterminal b => nullable.contains b

/-- A production without terminals says that its left-hand side derives the empty string if all
names on its right-hand side do. -/
def erasingClauses (g : Grammar) : List (Clause String) :=
  (g.productions.filter fun p => p.rhs.all Symbol.isNonterminal).map fun p => ⟨p.rhsNames, p.lhs⟩

/-- The names that derive the empty string. -/
def nullables (g : Grammar) : List String := Clause.consequences g.erasingClauses

/-- Whether a name derives the empty string. -/
def isNullable (g : Grammar) (name : String) : Bool := g.nullables.contains name

/-! ### Left recursion -/

/-- The nonterminals with which a form can begin after erasing names that derive the empty
string: those up to and including the first that does not. -/
def corners (nullable : List String) : List Symbol → List String
  | .nonterminal b :: rest => b :: if nullable.contains b then corners nullable rest else []
  | _ => []

/-- An edge leads from a name to every name with which a form derived from it in one step can
begin. -/
def cornerEdges (g : Grammar) : List (String × String) :=
  let nullable := g.nullables
  g.productions.flatMap fun p => (corners nullable p.rhs).map (p.lhs, ·)

/-- What can be reached from `a` along edges in one or more steps. -/
def below (edges : List (String × String)) (a : String) : List String :=
  reachable edges ((edges.filter (·.1 == a)).map Prod.snd)

/-- Whether some name derives, in one or more steps, a form that begins with itself. -/
def hasLeftRecursion (g : Grammar) : Bool :=
  let edges := g.cornerEdges
  (Choice.distinct g.lhsNames).any fun a => (below edges a).contains a

/-! ### Normal forms -/

/-- Whether the start symbol occurs on a right-hand side. -/
def usesStart (g : Grammar) : Bool := g.productions.any fun p => p.rhsNames.contains g.start

/-- An empty production is tolerated for the start symbol if that occurs on no right-hand side. -/
def toleratesEmpty (g : Grammar) (p : Production) : Bool :=
  p.isEmpty && p.lhs == g.start && !g.usesStart

/-- Whether every production is binary, lexical or a tolerated empty one. -/
def isChomskyNormal (g : Grammar) : Bool :=
  g.productions.all fun p => p.isBinary || p.isLexical || g.toleratesEmpty p

/-- Whether every production is binary, unary, lexical or a tolerated empty one. -/
def isTwoForm (g : Grammar) : Bool :=
  g.productions.all fun p => p.isBinary || p.isUnary || p.isLexical || g.toleratesEmpty p

end Grammar

end DeductiveParsing.ContextFree
