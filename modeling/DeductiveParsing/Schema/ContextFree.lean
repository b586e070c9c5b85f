/-
The parsing schemata for context-free grammars. Each takes a grammar and the tokens of an input, and
says first whether the grammar suits the algorithm.

* `topDown`, `shiftReduce`, `earley`, `leftCorner`, `unger`, `lr`: walks through derivations;
* `cyk`, `cykExtended`, `cykGeneral`: spans from the bottom up.
-/
import DeductiveParsing.Schema.Basic
import DeductiveParsing.Schema.Fault

namespace DeductiveParsing.Schema

open ContextFree

variable {W : Type}

/-- An axiom with one item. -/
def fact (name : String) (item : Item W) : Axiom W := ⟨name, [item]⟩

/-- The schema of top-down parsing. -/
def topDown (g : Grammar) (tokens : List String) : Except Fault (Schema W) := do
  require (!g.hasEmptyProduction) (.emptyProductions .topDown)
  return make
    [fact "axiom" (.ofForm [.sequence [g.start], .index 0])]
    (.topDown (.scan tokens) :: g.productions.map fun p => .topDown (.predict p tokens.length))
    [.ofForm [.sequence [], .index tokens.length]]

/-- The schema of shift-reduce parsing. -/
def shiftReduce (g : Grammar) (tokens : List String) : Except Fault (Schema W) := do
  require (!g.hasEmptyProduction) (.emptyProductions .shiftReduce)
  return make
    [fact "axiom" (.ofForm [.sequence [], .index 0])]
    (.shiftReduce (.shift tokens) :: g.productions.map fun p => .shiftReduce (.reduce p))
    [.ofForm [.sequence [g.start], .index tokens.length]]

/-- The schema of Earley parsing. -/
def earley (g : Grammar) (tokens : List String) : Except Fault (Schema W) :=
  let starts := g.productionsOf g.start
  .ok <| make
    (starts.map fun p =>
      fact "axiom" (EarleyRule.item (.ofProduction p) 0 0 [Tree.ofProduction p]))
    (.earley (.scan tokens) :: .earley .complete ::
      g.productions.map fun p => .earley (.predict p))
    (starts.map fun p => EarleyRule.item (.complete p) 0 tokens.length [])

/-- The schema of left-corner parsing. -/
def leftCorner (g : Grammar) (tokens : List String) : Except Fault (Schema W) := do
  require (!g.hasEmptyProduction) (.emptyProductions .leftCorner)
  require (!g.hasLeftRecursion) (.leftRecursion .leftCorner)
  return make
    [fact "axiom" (LeftCornerRule.item tokens [g.start] [])]
    ((g.productions.map fun p => .leftCorner (.reduce p)) ++
      [.leftCorner .remove, .leftCorner .move])
    [LeftCornerRule.item [] [] []]

/-- The schema of parsing by splits. -/
def unger (g : Grammar) (tokens : List String) : Except Fault (Schema W) := do
  require (!g.hasEmptyProduction) (.emptyProductions .unger)
  require (!g.hasLeftRecursion) (.leftRecursion .unger)
  return make
    [fact "axiom" (UngerRule.item (UngerRule.asked g.start) 0 tokens.length)]
    (.unger (.scan tokens) ::
      g.productions.flatMap fun p => [.unger (.predict p), .unger (.complete p)])
    [UngerRule.item (UngerRule.answered g.start) 0 tokens.length]

/-- The schema of parsing with a table. -/
def lr (g : Grammar) (tokens : List String) : Except Fault (Schema W) := do
  require (!g.hasEmptyProduction) (.emptyProductions .lr)
  let table := Lr.Table.ofGrammar g
  let goal (q : Nat) : Item W :=
    .ofForm [.sequence [Lr.stateName 0, g.start, Lr.stateName q], .index tokens.length]
  return make
    [fact "axiom" (.ofForm [.sequence [Lr.stateName 0], .index 0])]
    (.lr (.shift table tokens) ::
      table.ownNumbers.map fun n => .lr (.reduce n table tokens))
    ((table.goto? 0 g.start).map goal).toList

/-! ### Spans -/

/-- The places at which a token occurs. -/
def placesOf (tokens : List String) (a : String) : List Nat :=
  (tokens.zipIdx.filter fun (token, _) => token == a).map Prod.snd

/-- The axioms of a production: the places of its terminal if it is lexical, and the empty input if
it is empty. -/
def lexicalAxioms (tokens : List String) (p : Production) : List (Axiom W) :=
  let factAt (i l : Nat) : Axiom W :=
    fact ("scan " ++ p.text) (CykRule.item p.lhs i l [Tree.ofProduction p])
  match p.isLexical, p.rhsNames with
  | true, [a] => (placesOf tokens a).map fun i => factAt i 1
  | _, _ => if p.isEmpty && tokens.isEmpty then [factAt 0 0] else []

/-- The goal of parsing by spans: the start symbol over the whole input. -/
def wholeSpan (start : String) (tokens : List String) : Item W :=
  CykRule.item start 0 tokens.length []

/-- The schema of parsing by spans for grammars in Chomsky normal form. -/
def cyk (g : Grammar) (tokens : List String) : Except Fault (Schema W) := do
  require g.isChomskyNormal (.notChomskyNormal .cyk)
  return make
    (g.productions.flatMap (lexicalAxioms tokens))
    ((g.productions.filter Production.isBinary).map fun p => .cyk (.binary p))
    [wholeSpan g.start tokens]

/-- The rule of a binary or a unary production. -/
def binaryOrUnary? (p : Production) : Option (Rule W) :=
  if p.isBinary then some (.cyk (.binary p))
  else if p.isUnary then some (.cyk (.unary p))
  else none

/-- The schema of parsing by spans for grammars with unary productions. -/
def cykExtended (g : Grammar) (tokens : List String) : Except Fault (Schema W) := do
  require g.isTwoForm (.notTwoForm .cykExtended)
  return make
    (g.productions.flatMap (lexicalAxioms tokens))
    (g.productions.filterMap binaryOrUnary?)
    [wholeSpan g.start tokens]

/-- The axiom of an empty string behind the first `i` tokens. -/
def emptyAxiom (i : Nat) : Axiom W :=
  fact ("scan " ++ epsilon) (CykRule.item epsilon i 0 [])

/-- The schema of parsing by spans for all grammars. -/
def cykGeneral (g : Grammar) (tokens : List String) : Except Fault (Schema W) :=
  let tokenAxioms : List (Axiom W) := tokens.zipIdx.flatMap fun (token, i) =>
    [fact ("scan " ++ token) (CykRule.item token i 1 []), emptyAxiom i]
  .ok <| make
    (tokenAxioms ++ [emptyAxiom tokens.length])
    (g.productions.map fun p => .cyk (.general p))
    [wholeSpan g.start tokens]

end DeductiveParsing.Schema
