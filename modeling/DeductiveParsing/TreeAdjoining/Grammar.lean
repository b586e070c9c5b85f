/-
Tree-adjoining grammars: initial trees, whose open leaves are filled by substitution, and auxiliary
trees, which adjoin at inner nodes. Trees are known by names and listed in the order of the names.

* `TreeAdjoining.Grammar`: declared symbols, a start symbol and the elementary trees;
* `Grammar.isSubstitutionNode`, `Grammar.isAdjoinable`: where the two operations may take place;
* `Grammar.unbinarized?`: the first tree with a node of more than two children;
* `Grammar.ofContextFree`: the grammar with one initial tree for each production.
-/
import DeductiveParsing.ContextFree.Grammar

namespace DeductiveParsing.TreeAdjoining

/-! ### Named trees -/

/-- Trees with their names, in increasing order of the names. -/
abbrev NamedTrees := List (String × Tree)

/-- Adds a tree at the place of its name; it takes the place of a tree with the same name. -/
def insertNamed (name : String) (tree : Tree) : NamedTrees → NamedTrees
  | [] => [(name, tree)]
  | (n, t) :: rest =>
    if name < n then (name, tree) :: (n, t) :: rest
    else if name = n then (name, tree) :: rest
    else (n, t) :: insertNamed name tree rest

/-- Trees in the order of their names. -/
def ofNamed (trees : List (String × Tree)) : NamedTrees :=
  trees.foldl (fun sorted (name, tree) => insertNamed name tree sorted) []

/-! ### Grammars -/

/-- A tree-adjoining grammar. -/
structure Grammar where
  nonterminals : List String
  terminals : List String
  start : String
  initial : NamedTrees
  auxiliary : NamedTrees
deriving DecidableEq, Repr, Inhabited

namespace Grammar

/-- The elementary tree of a name. -/
def tree? (g : Grammar) (name : String) : Option Tree :=
  match g.initial.lookup name with
  | some t => some t
  | none => g.auxiliary.lookup name

/-- All elementary trees, the initial ones first. -/
def trees (g : Grammar) : List (String × Tree) := g.initial ++ g.auxiliary

/-- Whether a name is that of an initial tree. -/
def isInitial (g : Grammar) (name : String) : Bool := (g.initial.lookup name).isSome

/-- Whether a name is declared as a nonterminal. -/
def isNonterminal (g : Grammar) (name : String) : Bool := g.nonterminals.contains name

/-- Whether a name is declared as a terminal. -/
def isTerminal (g : Grammar) (name : String) : Bool := g.terminals.contains name

/-- The subtree at a node of the elementary tree of a name. -/
def node? (g : Grammar) (name : String) (a : Address) : Option Tree := do
  (← g.tree? name).subtreeAt? a

/-- The foot of the auxiliary tree of a name. -/
def foot? (g : Grammar) (name : String) : Option Address := do
  (← g.auxiliary.lookup name).footAddress?

/-- A substitution node is a leaf with a nonterminal that is no foot. -/
def isSubstitutionNode (g : Grammar) (name : String) (a : Address) : Bool :=
  match g.node? name a with
  | some n => n.isLeaf && !n.foot && g.isNonterminal n.label
  | none => false

/-- All substitution nodes with the names of their trees. -/
def substitutionNodes (g : Grammar) : List (String × Address) :=
  g.trees.flatMap fun (name, t) =>
    (t.nodes.filter fun (a, _) => g.isSubstitutionNode name a).map fun (a, _) => (name, a)

/-- Whether the auxiliary tree `aux` may adjoin at a node: an inner node with the label of its
root. -/
def isAdjoinable (g : Grammar) (aux name : String) (a : Address) : Bool :=
  match g.auxiliary.lookup aux, g.node? name a with
  | some beta, some n => !n.isLeaf && n.label == beta.label
  | _, _ => false

/-- All nodes of elementary trees at which the auxiliary tree `aux` may adjoin. -/
def adjunctionSites (g : Grammar) (aux : String) : List (String × Address) :=
  g.trees.flatMap fun (name, t) =>
    (t.nodes.filter fun (a, _) => g.isAdjoinable aux name a).map fun (a, _) => (name, a)

/-- The first tree with a node of more than two children. -/
def unbinarized? (g : Grammar) : Option String :=
  (g.trees.find? fun (_, t) => t.nodes.any fun (_, n) => 2 < n.children.length).map Prod.fst

/-- The initial trees whose root has the start symbol. -/
def startTrees (g : Grammar) : List (String × Tree) :=
  g.initial.filter fun (_, t) => t.label == g.start

/-- The grammar with an initial tree for each production of a context-free grammar. -/
def ofContextFree (g : ContextFree.Grammar) : Grammar where
  nonterminals := g.nonterminals
  terminals := g.terminals
  start := g.start
  initial := ofNamed <| g.productions.zipIdx.map fun (p, i) =>
    ("α" ++ (i + 1).repr, Tree.ofProduction p)
  auxiliary := []

end Grammar

end DeductiveParsing.TreeAdjoining
