/-
Parsing with tree-adjoining grammars from the bottom up. An item `[γ,p,⊤,i,f1,f2,j]` says that the
node `p` of the elementary tree `γ` spans the tokens between `i` and `j`, with a gap between `f1`
and `f2` where a foot below it takes up what the tree is adjoined to. The mark `⊤` says that it has
been settled whether something adjoins at the node, and `⊥` that it has not.

* `TreeCykRule.moveUnary`, `moveBinary`: from children to their parent;
* `TreeCykRule.nullAdjoin`, `adjoin`: nothing or an auxiliary tree adjoins;
* `TreeCykRule.substitute`: an initial tree fills a substitution node.
-/
import DeductiveParsing.Inference.Firing
import DeductiveParsing.TreeAdjoining.Grammar

namespace DeductiveParsing

open TreeAdjoining (Grammar)

/-- The place of the gap below a node, if there is one. -/
structure Gap where
  start : Option Nat
  stop : Option Nat
deriving DecidableEq, Repr, Inhabited

namespace Gap

/-- No gap. -/
def absent : Gap := ⟨none, none⟩

/-- The gap of two neighbours, at most one of which has one. -/
def join? (g h : Gap) : Option Gap :=
  if g = absent then some h else if h = absent then some g else none

end Gap

/-- The rules of parsing with trees from the bottom up. -/
inductive TreeCykRule where
  | moveUnary (grammar : Grammar)
  | moveBinary (grammar : Grammar)
  | nullAdjoin
  | substitute (grammar : Grammar) (tree : String) (node : Address)
  | adjoin (grammar : Grammar)
deriving DecidableEq, Repr

/-- What an item of parsing from the bottom up says. -/
structure NodeSpan where
  tree : String
  node : Address
  settled : Bool
  start : Nat
  gap : Gap
  stop : Nat
deriving DecidableEq, Repr

namespace NodeSpan

variable {W : Type}

/-- The mark of a node at which adjunction is settled or open. -/
def mark (settled : Bool) : String := if settled then "⊤" else "⊥"

/-- What a mark says. -/
def ofMark? (m : String) : Option Bool :=
  if m = mark true then some true else if m = mark false then some false else none

/-- What an item says. -/
def ofItem? (x : Item W) : Option NodeSpan := do
  let settled ← ofMark? (← x.symbol? 2)
  let tree ← x.symbol? 0
  let node ← x.address? 1
  let start ← x.index? 3
  let gapStart ← x.optionalIndex? 4
  let gapStop ← x.optionalIndex? 5
  let stop ← x.index? 6
  return { tree, node, settled, start, gap := ⟨gapStart, gapStop⟩, stop }

/-- The item that says so. -/
def toItem (s : NodeSpan) : Item W :=
  .ofForm [.symbol s.tree, .address s.node, .symbol (mark s.settled), .index s.start,
    .ofIndex? s.gap.start, .ofIndex? s.gap.stop, .index s.stop]

end NodeSpan

namespace TreeCykRule

variable {W : Type}

/-- The number of premises. -/
def arity : TreeCykRule → Nat
  | moveBinary _ => 2
  | adjoin _ => 2
  | _ => 1

/-- A place of an operation as text. -/
def placeText (tree : String) (node : Address) : String := "in " ++ tree ++ " at " ++ node.text

/-- The name of a rule. -/
def name : TreeCykRule → String
  | moveUnary _ => "move-unary"
  | moveBinary _ => "move-binary"
  | nullAdjoin => "null-adjoin"
  | substitute _ tree node => "substitute " ++ placeText tree node
  | adjoin _ => "adjoin"

/-- A rule as text. -/
def describe : TreeCykRule → String
  | moveUnary _ => inference "[γ,p.1,⊤,i,f1,f2,j]" "γ(p.2) undefined" "[γ,p,⊥,i,f1,f2,j]"
  | moveBinary _ =>
    inference "[γ,p.1,⊤,i,f1,f2,k] [γ,p.2,⊤,k,f1',f2',j]" "" "[γ,p,⊥,i,f1⊕f1',f2⊕f2',j]"
  | nullAdjoin => inference "[γ,p,⊥,i,f1,f2,j]" "" "[γ,p,⊤,i,f1,f2,j]"
  | substitute g tree node =>
    let label := ((g.node? tree node).map Tree.label).getD "?"
    inference "[α,ε,⊤,i,-,-,j]" ("α ∈ I, root label " ++ label)
      ("[" ++ tree ++ "," ++ node.text ++ ",⊤,i,-,-,j]")
  | adjoin _ =>
    inference "[β,ε,⊤,i,f1,f2,j] [γ,p,⊥,f1,f1',f2',f2]" "β adjoinable at γ(p)"
      "[γ,p,⊤,i,f1',f2',j]"

/-- The consequence of an only child for its parent. -/
def joinOnly (g : Grammar) (x : Item W) : Option (Firing W) := do
  let s ← NodeSpan.ofItem? x
  let parent ← s.node.parent?
  if s.settled ∧ s.node.place? = some 1 ∧ g.node? s.tree (parent.child 2) = none then
    Firing.one (name (moveUnary g)) { s with node := parent, settled := false }.toItem
  else none

/-- The consequence of a first and a second child for their parent. -/
def joinTwo (g : Grammar) (left right : Item W) : Option (Firing W) := do
  let l ← NodeSpan.ofItem? left
  let r ← NodeSpan.ofItem? right
  let gap ← l.gap.join? r.gap
  let parent ← l.node.parent?
  if l.settled ∧ r.settled ∧ l.tree = r.tree ∧ l.node.place? = some 1 ∧
      l.node.rightSibling? = some r.node ∧ l.stop = r.start then
    Firing.one (name (moveBinary g))
      { l with node := parent, settled := false, gap := gap, stop := r.stop }.toItem
  else none

/-- The consequence of an auxiliary tree that adjoins at a node. -/
def wrap (g : Grammar) (aux target : Item W) : Option (Firing W) := do
  let b ← NodeSpan.ofItem? aux
  let t ← NodeSpan.ofItem? target
  let start ← b.gap.start
  let stop ← b.gap.stop
  if b.settled ∧ t.settled = false ∧ b.node.isRoot ∧ g.isAdjoinable b.tree t.tree t.node ∧
      t.start = start ∧ t.stop = stop then
    Firing.one ("adjoin " ++ b.tree ++ " " ++ placeText t.tree t.node)
      { t with settled := true, start := b.start, stop := b.stop }.toItem
  else none

/-- The consequence of an initial tree that fills a substitution node. -/
def fillNode (g : Grammar) (tree : String) (node : Address) (x : Item W) : Option (Firing W) := do
  let s ← NodeSpan.ofItem? x
  let target ← g.node? tree node
  let source ← g.tree? s.tree
  if s.settled ∧ s.node.isRoot ∧ g.isInitial s.tree ∧ source.label = target.label then
    Firing.one ("substitute " ++ s.tree ++ " " ++ placeText tree node)
      { s with tree := tree, node := node, gap := .absent }.toItem
  else none

/-- The consequences for antecedents. -/
def fire : TreeCykRule → List (Item W) → Option (Firing W)
  | moveUnary g, [x] => joinOnly g x
  | moveBinary g, [x, y] => Firing.eitherOrder? (joinTwo g) x y
  | nullAdjoin, [x] => do
    let s ← NodeSpan.ofItem? x
    if s.settled then none else Firing.one (name nullAdjoin) { s with settled := true }.toItem
  | substitute g tree node, [x] => fillNode g tree node x
  | adjoin g, [x, y] => Firing.eitherOrder? (wrap g) x y
  | _, _ => none

end TreeCykRule

end DeductiveParsing
