/-
Context-free productions.

* `Symbol`: a terminal or a nonterminal symbol;
* `Production`: a left-hand side with the symbols that may take its place;
* `Production.isBinary`, `isUnary`, `isLexical`: the shapes that normal forms allow;
* `Tree.ofProduction`: the tree of one production.
-/
import DeductiveParsing.Tree.Basic

namespace DeductiveParsing

/-- A grammar symbol. -/
inductive Symbol where
  | terminal (name : String)
  | nonterminal (name : String)
deriving DecidableEq, Hashable, Ord, Repr, Inhabited

namespace Symbol

/-- The name of a symbol. -/
def name : Symbol → String
  | terminal a => a
  | nonterminal a => a

/-- Whether the symbol is a terminal. -/
def isTerminal : Symbol → Bool
  | terminal _ => true
  | nonterminal _ => false

/-- Whether the symbol is a nonterminal. -/
def isNonterminal : Symbol → Bool
  | terminal _ => false
  | nonterminal _ => true

/-- The symbol of a name: a nonterminal if the name is among the declared ones. -/
def classify (nonterminals : List String) (name : String) : Symbol :=
  if nonterminals.contains name then nonterminal name else terminal name

end Symbol

/-- A production: the left-hand side may be replaced by the right-hand side. -/
structure Production where
  lhs : String
  rhs : List Symbol
deriving DecidableEq, Hashable, Ord, Repr, Inhabited

namespace Production

/-- The names on the right-hand side. -/
def rhsNames (p : Production) : List String := p.rhs.map Symbol.name

/-- Whether the right-hand side is empty. -/
def isEmpty (p : Production) : Bool := p.rhs.isEmpty

/-- Whether the right-hand side consists of two nonterminals. -/
def isBinary (p : Production) : Bool := p.rhs.length == 2 && p.rhs.all Symbol.isNonterminal

/-- Whether the right-hand side consists of one nonterminal. -/
def isUnary (p : Production) : Bool := p.rhs.length == 1 && p.rhs.all Symbol.isNonterminal

/-- Whether the right-hand side consists of one terminal. -/
def isLexical (p : Production) : Bool := p.rhs.length == 1 && p.rhs.all Symbol.isTerminal

/-- The right-hand side of `p` as text. -/
def rhsText (p : Production) : String := " ".intercalate p.rhsNames

/-- A production as text. -/
def text (p : Production) : String :=
  p.lhs ++ " -> " ++ if p.isEmpty then epsilon else p.rhsText

end Production

/-- The tree of a production: the left-hand side over the symbols of the right-hand side, or over
the empty string. -/
def Tree.ofProduction (p : Production) : Tree :=
  .branch p.lhs (if p.isEmpty then [.leaf epsilon] else p.rhsNames.map Tree.leaf)

end DeductiveParsing
