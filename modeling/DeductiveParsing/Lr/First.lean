/-
The terminals with which what a name derives can begin, and those that can follow it. Both are read
off graphs: a name begins with what its productions begin with, and what follows a name also follows
the name at the end of one of its productions.

* `firstOf`: the terminals with which a form derived from a name can begin;
* `followOf`: the terminals, and the end of the input, that can follow a name;
* `follows`: the same for all names on right-hand sides.
-/
import DeductiveParsing.ContextFree.Grammar

namespace DeductiveParsing.Lr

open ContextFree

/-- The mark of the end of the input. -/
def endMark : String := "$"

/-! ### What a name begins with -/

/-- The symbols with which a form can begin after erasing names that derive the empty string: those
up to and including the first that does not. -/
def openers (nullable : List String) : List Symbol → List Symbol
  | [] => []
  | .terminal a :: _ => [.terminal a]
  | .nonterminal b :: rest =>
    .nonterminal b :: if nullable.contains b then openers nullable rest else []

/-- An edge leads from a name to every symbol with which a form derived from it in one step can
begin. -/
def openerEdges (g : Grammar) : List (Symbol × Symbol) :=
  let nullable := g.nullables
  g.productions.flatMap fun p => (openers nullable p.rhs).map (.nonterminal p.lhs, ·)

/-- The names of the terminals among symbols. -/
def terminalNames (symbols : List Symbol) : List String :=
  (symbols.filter Symbol.isTerminal).map Symbol.name

/-- The terminals that can be reached along edges from some symbols. -/
def terminalsBelow (edges : List (Symbol × Symbol)) (symbols : List Symbol) : List String :=
  terminalNames (reachable edges symbols)

/-- The terminals with which a form derived from a name can begin. -/
def firstOf (g : Grammar) (name : String) : List String :=
  terminalsBelow (openerEdges g) [.nonterminal name]

/-! ### What follows a name -/

/-- The nonterminals of a form with what stands behind them. -/
def occurrences : List Symbol → List (String × List Symbol)
  | [] => []
  | .terminal _ :: rest => occurrences rest
  | .nonterminal b :: rest => (b, rest) :: occurrences rest

/-- The nonterminals on right-hand sides with what stands behind them. -/
def allOccurrences (g : Grammar) : List (String × List Symbol) :=
  g.productions.flatMap fun p => occurrences p.rhs

/-- An edge leads from a name to every name with a production that ends in it, apart from names that
derive the empty string: what follows that name follows this one too. -/
def endingEdges (g : Grammar) : List (String × String) :=
  let nullable := g.nullables
  g.productions.flatMap fun p =>
    ((occurrences p.rhs).filter fun o => Grammar.allNullable nullable o.2).map (·.1, p.lhs)

/-- The terminals with which what stands behind an occurrence of a name can begin, for each name on
a right-hand side. -/
def neighbours (g : Grammar) : List (String × List String) :=
  let nullable := g.nullables
  let edges := openerEdges g
  let found := allOccurrences g
  (Choice.distinct (found.map Prod.fst)).map fun name =>
    let behind := (found.filter (·.1 == name)).flatMap fun o => openers nullable o.2
    (name, terminalsBelow edges behind)

/-- What follows a name: the neighbours of all names to which edges lead from it, and the end of the
input if one of them is the start symbol. -/
def followAlong (start : String) (edges : List (String × String))
    (near : List (String × List String)) (name : String) : List String :=
  let names := reachable edges [name]
  Choice.distinct <|
    (if names.contains start then [endMark] else []) ++
      (near.filter fun entry => names.contains entry.1).flatMap Prod.snd

/-- The terminals, and the end mark, that can follow a name. -/
def followOf (g : Grammar) (name : String) : List String :=
  followAlong g.start (endingEdges g) (neighbours g) name

/-- What can follow the names on left-hand sides. -/
def follows (g : Grammar) : List (String × List String) :=
  let edges := endingEdges g
  let near := neighbours g
  (Choice.distinct g.lhsNames).map fun name => (name, followAlong g.start edges near name)

end DeductiveParsing.Lr
