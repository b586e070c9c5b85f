/-
The automaton of dotted productions. A state is a set of places in numbered productions, listed in
increasing order; production zero is an added one that derives the start symbol.

* `Place`: a number of a production and a dot;
* `enteredNames`, `closure`: the names that a set of places leads to, and its state;
* `Automaton.ofGrammar`: the states that can be reached, with the transitions between them.
-/
import DeductiveParsing.Choice.Distinct
import DeductiveParsing.ContextFree.Grammar

namespace DeductiveParsing.Lr

open ContextFree

/-- A production's number and the place of a dot in it. -/
structure Place where
  production : Nat
  dot : Nat
deriving DecidableEq, Ord, Repr, Inhabited

/-- A set of places in increasing order. -/
abbrev State := List Place

/-- The start symbol with one prime, or as many more as make it a name that is not declared. -/
def augmentedName (g : Grammar) : String :=
  let primed (k : Nat) : String := g.start ++ String.ofList (List.replicate (k + 1) '\'')
  let names := (List.range (g.nonterminals.length + 1)).map primed
  (names.find? fun name => !g.isNonterminal name).getD (primed g.nonterminals.length)

/-- The productions of a grammar behind one that derives its start symbol from a new name. -/
def numbered (g : Grammar) : List Production :=
  ⟨augmentedName g, [.nonterminal g.start]⟩ :: g.productions

/-- All places in increasing order. -/
def allPlaces (productions : List Production) : State :=
  productions.zipIdx.flatMap fun (p, i) => (List.range (p.rhs.length + 1)).map fun dot => ⟨i, dot⟩

/-- The symbol behind the dot. -/
def Place.next? (productions : List Production) (x : Place) : Option Symbol := do
  (← productions[x.production]?).rhs[x.dot]?

/-- An edge leads from a name to the nonterminal with which a production of it begins. -/
def frontEdges (productions : List Production) : List (String × String) :=
  productions.filterMap fun p =>
    match p.rhs with
    | .nonterminal b :: _ => some (p.lhs, b)
    | _ => none

/-- The names whose productions a state has with the dot in front, because the dot of one of the
places stands before such a name or leads to it. -/
def enteredNames (productions : List Production) (kernel : List Place) : List String :=
  reachable (frontEdges productions) <| kernel.filterMap fun x =>
    match x.next? productions with
    | some (.nonterminal b) => some b
    | _ => none

/-- The state of a set of places: with a dot before a name it also has that name's productions
with the dot in front. The added production is never entered. -/
def closure (productions : List Production) (kernel : List Place) : State :=
  let entered := enteredNames productions kernel
  productions.zipIdx.flatMap fun (p, i) =>
    ((List.range (p.rhs.length + 1)).map (Place.mk i)).filter fun x =>
      kernel.contains x || (x.dot == 0 && i != 0 && entered.contains p.lhs)

/-- The places of a state that have a symbol behind the dot, with that symbol. -/
def outgoing (productions : List Production) (s : State) : List (Symbol × Place) :=
  s.filterMap fun y => (y.next? productions).map (·, y)

/-- The state behind a symbol. -/
def successor (productions : List Production) (s : State) (x : Symbol) : State :=
  let before := (outgoing productions s).filter (·.1 == x)
  closure productions (before.map fun (_, y) => ⟨y.production, y.dot + 1⟩)

/-- The symbols behind the dots of a state, terminals before nonterminals and each by name. -/
def nextSymbols (productions : List Production) (s : State) : List Symbol :=
  let symbols := Choice.distinct ((outgoing productions s).map Prod.fst)
  symbols.mergeSort fun x y => (compare x y).isLE

/-- The states found so far, and for each state that has been visited its transitions. -/
structure Automaton where
  states : List State
  transitions : List (List (Symbol × Nat))
deriving Repr, Inhabited

/-- Adds the transition of a state over a symbol to `target`, which gets the next number if it is
new. -/
def addTransition (found : List State × List (Symbol × Nat)) (x : Symbol) (target : State) :
    List State × List (Symbol × Nat) :=
  match found.1.idxOf? target with
  | some q => (found.1, found.2 ++ [(x, q)])
  | none => (found.1 ++ [target], found.2 ++ [(x, found.1.length)])

/-- Visits a state: all its transitions are added. -/
def visit (productions : List Production) (states : List State) (s : State) :
    List State × List (Symbol × Nat) :=
  (nextSymbols productions s).foldl
    (fun found x => addTransition found x (successor productions s x)) (states, [])

/-- Visits states in the order of their numbers, at most `fuel` of them. -/
def Automaton.grow (productions : List Production) : Nat → Automaton → Automaton
  | 0, m => m
  | fuel + 1, m =>
    match m.states[m.transitions.length]? with
    | none => m
    | some s =>
      let (states, edges) := visit productions m.states s
      grow productions fuel ⟨states, m.transitions ++ [edges]⟩

/-- The automaton of a grammar. There are no more states than sets of places. -/
def Automaton.ofGrammar (g : Grammar) : Automaton :=
  let productions := numbered g
  let first := closure productions [⟨0, 0⟩]
  grow productions (Nat.pow 2 (allPlaces productions).length) ⟨[first], []⟩

end DeductiveParsing.Lr
