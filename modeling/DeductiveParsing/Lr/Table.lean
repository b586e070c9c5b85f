/-
Parse tables with one token of lookahead. A state reduces by a production whose end it has reached
on everything that can follow the production's left-hand side; conflicting actions stand side by
side.

* `Action`: what to do in a state on a lookahead;
* `Table.ofGrammar`: the table of a grammar;
* `Table.actions`, `Table.goto?`: its cells;
* `stateName`, `stackState?`, `topState?`: states on a stack.
-/
import DeductiveParsing.Lr.Automaton
import DeductiveParsing.Lr.First
import DeductiveParsing.Text.Numeral

namespace DeductiveParsing.Lr

open ContextFree

/-- What to do in a state on a lookahead. -/
inductive Action where
  | shift (state : Nat)
  | reduce (production : Nat)
  | accept
deriving DecidableEq, Repr

/-- The actions of a state with their lookaheads, and the states behind nonterminals. -/
structure Row where
  actions : List (String × Action)
  gotos : List (String × Nat)
deriving Repr, Inhabited

/-- The numbered productions, and a row for each state. -/
structure Table where
  productions : List Production
  rows : List Row
deriving Repr, Inhabited

/-- The shift that a transition stands for. -/
def shiftOf? : Symbol × Nat → Option (String × Action)
  | (.terminal a, q) => some (a, .shift q)
  | (.nonterminal _, _) => none

/-- The goto that a transition stands for. -/
def gotoOf? : Symbol × Nat → Option (String × Nat)
  | (.terminal _, _) => none
  | (.nonterminal b, q) => some (b, q)

/-- The actions of a place whose dot has reached the end of its production. -/
def completionsAt (productions : List Production) (follow : List (String × List String))
    (x : Place) : List (String × Action) :=
  match productions[x.production]? with
  | none => []
  | some p =>
    if x.dot ≠ p.rhs.length then []
    else if x.production = 0 then [(endMark, .accept)]
    else ((follow.lookup p.lhs).getD []).map fun a => (a, .reduce x.production)

/-- The row of a state: shifts, then what its places complete, in their order. -/
def rowOf (productions : List Production) (follow : List (String × List String)) (s : State)
    (edges : List (Symbol × Nat)) : Row where
  actions := edges.filterMap shiftOf? ++ s.flatMap (completionsAt productions follow)
  gotos := edges.filterMap gotoOf?

namespace Table

/-- The table of a grammar. -/
def ofGrammar (g : Grammar) : Table :=
  let productions := numbered g
  let follow := follows g
  let m := Automaton.ofGrammar g
  ⟨productions, List.zipWith (rowOf productions follow) m.states m.transitions⟩

/-- The number of states. -/
def stateCount (t : Table) : Nat := t.rows.length

/-- The actions in a cell of a row. -/
def cell (r : Row) (lookahead : String) : List Action :=
  (r.actions.filter (·.1 == lookahead)).map Prod.snd

/-- The actions of a state on a lookahead. -/
def actions (t : Table) (q : Nat) (lookahead : String) : List Action :=
  match t.rows[q]? with
  | some r => cell r lookahead
  | none => []

/-- The state behind a nonterminal. -/
def goto? (t : Table) (q : Nat) (name : String) : Option Nat := do
  (← t.rows[q]?).gotos.lookup name

/-- The production of a number. -/
def production? (t : Table) (n : Nat) : Option Production := t.productions[n]?

/-- The numbers of the grammar's own productions. -/
def ownNumbers (t : Table) : List Nat := (List.range t.productions.length).drop 1

/-- Whether no cell holds two actions. -/
def isDeterministic (t : Table) : Bool :=
  t.rows.all fun r => r.actions.all fun (a, _) => (cell r a).length ≤ 1

end Table

/-- The name of a state on a stack. -/
def stateName (q : Nat) : String := "q" ++ q.repr

/-- The state whose name a stack ends in. -/
def stackState? (stack : List String) : Option Nat :=
  match stack.getLast?.map String.toList with
  | some ('q' :: digits) => Text.readNumber? digits
  | _ => none

/-- The state that a stack ends in, if its number is an index. No table has so many states that the
bound matters to a stack of its own. -/
def topState? (stack : List String) : Option Nat :=
  (stackState? stack).filter (· < Text.indexBound)

end DeductiveParsing.Lr
