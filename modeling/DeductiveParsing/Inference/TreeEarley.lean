/-
Parsing with tree-adjoining grammars from the left. An item `[γ,p,x,i,j,k,l,a]` says how far the
walk around the node `p` of the elementary tree `γ` has come: to its left or right side and there
above or below it (`la`, `lb`, `rb`, `ra`). What has been found spans the tokens between `i` and `l`
with a gap between `j` and `k` for the foot, and the truth value `a` says whether something has
been adjoined at the node.

* `Corner`: the four stations of the walk around a node;
* `NodeVisit`: what an item says;
* `TreeEarleyRule`: the rules, with `fire` for their consequences.
-/
import DeductiveParsing.Inference.TreeCyk
import DeductiveParsing.Item.Forest

namespace DeductiveParsing

open TreeAdjoining (Grammar)

/-- The four stations of the walk around a node. -/
inductive Corner where
  | leftAbove
  | leftBelow
  | rightBelow
  | rightAbove
deriving DecidableEq, Repr

namespace Corner

/-- A station as text. -/
def text : Corner → String
  | leftAbove => "la"
  | leftBelow => "lb"
  | rightBelow => "rb"
  | rightAbove => "ra"

end Corner

/-- What an item of parsing from the left says. The station is kept as it is written, since other
texts may stand in its place. -/
structure NodeVisit where
  tree : String
  node : Address
  corner : String
  start : Nat
  gap : Gap
  stop : Nat
  adjoined : Bool
deriving DecidableEq, Repr

namespace NodeVisit

variable {W : Type}

/-- What an item says. -/
def ofItem? (x : Item W) : Option NodeVisit := do
  let tree ← x.symbol? 0
  let node ← x.address? 1
  let corner ← x.symbol? 2
  let start ← x.index? 3
  let gapStart ← x.optionalIndex? 4
  let gapStop ← x.optionalIndex? 5
  let stop ← x.index? 6
  let adjoined ← x.flag? 7
  return { tree, node, corner, start, gap := ⟨gapStart, gapStop⟩, stop, adjoined }

/-- The item that says so. -/
def toItem (v : NodeVisit) (trees : List Tree) : Item W :=
  .withTrees [.symbol v.tree, .address v.node, .symbol v.corner, .index v.start,
    .ofIndex? v.gap.start, .ofIndex? v.gap.stop, .index v.stop, .flag v.adjoined] trees

/-- Whether the walk is at a station and nothing has been adjoined. -/
def isAt (v : NodeVisit) (c : Corner) : Bool := v.corner == c.text && !v.adjoined

/-- The walk at another node and station, with nothing adjoined there. -/
def moveTo (v : NodeVisit) (node : Address) (c : Corner) : NodeVisit :=
  { v with node := node, corner := c.text, adjoined := false }

/-- The walk that begins at a place of the input. -/
def begin (tree : String) (node : Address) (c : Corner) (place : Nat) : NodeVisit :=
  { tree, node, corner := c.text, start := place, gap := .absent, stop := place, adjoined := false }

end NodeVisit

/-- The rules of parsing with trees from the left. -/
inductive TreeEarleyRule where
  | scanToken (grammar : Grammar) (tokens : List String)
  | scanEmpty (grammar : Grammar)
  | predictAdjoinable (grammar : Grammar)
  | predictNoAdjunction (grammar : Grammar)
  | predictAdjoined (grammar : Grammar)
  | completeFoot (grammar : Grammar)
  | completeNode (grammar : Grammar)
  | adjoin (grammar : Grammar)
  | moveDown (grammar : Grammar)
  | moveRight (grammar : Grammar)
  | moveUp (grammar : Grammar)
  | predictSubstitution (grammar : Grammar)
  | substitute (grammar : Grammar) (tree : String) (node : Address)
deriving DecidableEq, Repr

namespace TreeEarleyRule

variable {W : Type}

/-- The number of premises. -/
def arity : TreeEarleyRule → Nat
  | completeFoot _ => 2
  | completeNode _ => 2
  | adjoin _ => 2
  | _ => 1

/-- The name of a rule. -/
def name : TreeEarleyRule → String
  | scanToken _ _ => "scan"
  | scanEmpty _ => "scan"
  | predictAdjoinable _ => "predict adjoinable"
  | predictNoAdjunction _ => "predict no-adj"
  | predictAdjoined _ => "predict adjoined"
  | completeFoot _ => "complete foot"
  | completeNode _ => "complete node"
  | adjoin _ => "adjoin"
  | moveDown _ => "move down"
  | moveRight _ => "move right"
  | moveUp _ => "move up"
  | predictSubstitution _ => "predict substitution"
  | substitute _ tree node => "substitute " ++ TreeCykRule.placeText tree node

/-- A rule as text. -/
def describe : TreeEarleyRule → String
  | scanToken _ _ => inference "[γ,p,la,i,j,k,l,0]" "l(γ,p) = w_l+1" "[γ,p,ra,i,j,k,l+1,0]"
  | scanEmpty _ => inference "[γ,p,la,i,j,k,l,0]" "l(γ,p) = ε" "[γ,p,ra,i,j,k,l,0]"
  | predictAdjoinable _ =>
    inference "[γ,p,la,i,j,k,l,0]" "β adjoinable at γ(p)" "[β,ε,la,l,-,-,l,0]"
  | predictNoAdjunction _ => inference "[γ,p,la,i,j,k,l,0]" "" "[γ,p,lb,l,-,-,l,0]"
  | predictAdjoined _ =>
    inference "[β,pf,lb,l,-,-,l,0]" "pf foot of β, β adjoinable at γ(p)" "[γ,p,lb,l,-,-,l,0]"
  | completeFoot _ =>
    inference "[γ,p,rb,i,j,k,l,0] [β,pf,lb,i,-,-,i,0]" "pf foot of β, β adjoinable at γ(p)"
      "[β,pf,rb,i,i,l,l,0]"
  | completeNode _ =>
    inference "[γ,p,la,f,g,h,i,0] [γ,p,rb,i,j,k,l,adj]" "l(γ,p) ∈ N" "[γ,p,ra,f,g⊕j,h⊕k,l,0]"
  | adjoin _ =>
    inference "[β,ε,ra,i,j,k,l,0] [γ,p,rb,j,g,h,k,0]" "β adjoinable at γ(p)" "[γ,p,rb,i,g,h,l,1]"
  | moveDown _ => inference "[γ,p,lb,i,j,k,l,0]" "γ(p.1) defined" "[γ,p.1,la,i,j,k,l,0]"
  | moveRight _ => inference "[γ,p,ra,i,j,k,l,0]" "γ(p+1) defined" "[γ,p+1,la,i,j,k,l,0]"
  | moveUp _ => inference "[γ,p.m,ra,i,j,k,l,0]" "γ(p.m+1) undefined" "[γ,p,rb,i,j,k,l,0]"
  | predictSubstitution _ =>
    inference "[γ,p,la,i,-,-,l,0]" "γ(p) substitution node, α ∈ I" "[α,ε,la,l,-,-,l,0]"
  | substitute _ tree node =>
    inference "[α,ε,ra,i,-,-,j,0]" "α ∈ I" ("[" ++ tree ++ "," ++ node.text ++ ",rb,i,-,-,j,0]")

/-! ### Leaves -/

/-- A leaf with a declared terminal is the next token. -/
def readToken (g : Grammar) (tokens : List String) (x : Item W) : Option (Firing W) := do
  let v ← NodeVisit.ofItem? x
  let node ← g.node? v.tree v.node
  if v.isAt .leftAbove ∧ node.isLeaf ∧ g.isTerminal node.label ∧ tokens[v.stop]? = some node.label
  then
    Firing.one ("scan " ++ node.label)
      ({ v.moveTo v.node .rightAbove with stop := v.stop + 1 }.toItem x.trees)
  else none

/-- A leaf for the empty string needs no token. -/
def readNothing (g : Grammar) (x : Item W) : Option (Firing W) := do
  let v ← NodeVisit.ofItem? x
  let node ← g.node? v.tree v.node
  if v.isAt .leftAbove ∧ node.isEpsilon then
    Firing.one ("scan " ++ node.label) ((v.moveTo v.node .rightAbove).toItem x.trees)
  else none

/-! ### Predictions -/

/-- Every auxiliary tree that may adjoin at the node may begin here. -/
def beginAuxiliaries (g : Grammar) (x : Item W) : Option (Firing W) := do
  let v ← NodeVisit.ofItem? x
  if v.isAt .leftAbove then
    let fitting := g.auxiliary.filter fun (beta, _) => g.isAdjoinable beta v.tree v.node
    Firing.ofItems (name (predictAdjoinable g)) <| fitting.map fun (beta, tree) =>
      (NodeVisit.begin beta .root .leftAbove v.stop).toItem [tree]
  else none

/-- Without an adjunction the walk goes below the node. Of the span only the place is kept. -/
def goBelow (g : Grammar) (x : Item W) : Option (Firing W) := do
  let v ← NodeVisit.ofItem? x
  let node ← g.node? v.tree v.node
  if v.isAt .leftAbove ∧ g.isNonterminal node.label ∧ g.isSubstitutionNode v.tree v.node = false
  then
    Firing.one (name (predictNoAdjunction g))
      ((NodeVisit.begin v.tree v.node .leftBelow v.stop).toItem x.trees)
  else none

/-- Below the foot of an auxiliary tree begins whatever it may have been adjoined to. -/
def beginSites (g : Grammar) (x : Item W) : Option (Firing W) := do
  let v ← NodeVisit.ofItem? x
  if v.isAt .leftBelow ∧ v.start = v.stop ∧ v.gap = .absent ∧ g.foot? v.tree = some v.node then
    let sites := g.adjunctionSites v.tree
    Firing.ofItems (name (predictAdjoined g)) <| sites.filterMap fun (tree, node) =>
      (g.tree? tree).map fun t => (NodeVisit.begin tree node .leftBelow v.stop).toItem [t]
  else none

/-- Every initial tree with the label of a substitution node may begin at it. -/
def beginInitials (g : Grammar) (x : Item W) : Option (Firing W) := do
  let v ← NodeVisit.ofItem? x
  let node ← g.node? v.tree v.node
  if v.isAt .leftAbove ∧ g.isSubstitutionNode v.tree v.node then
    let fitting := g.initial.filter fun (_, t) => t.label == node.label
    Firing.ofItems (name (predictSubstitution g)) <| fitting.map fun (alpha, tree) =>
      (NodeVisit.begin alpha .root .leftAbove v.stop).toItem [tree]
  else none

/-! ### Completions -/

/-- What a tree was adjoined to is the gap at the tree's foot. -/
def fillFoot (g : Grammar) (below foot : Item W) : Option (Firing W) := do
  let r ← NodeVisit.ofItem? below
  let f ← NodeVisit.ofItem? foot
  if r.isAt .rightBelow ∧ f.isAt .leftBelow ∧ f.start = r.start ∧ f.stop = r.start ∧
      f.gap = .absent ∧ g.foot? f.tree = some f.node ∧ g.isAdjoinable f.tree r.tree r.node then
    let v := f.moveTo f.node .rightBelow
    Firing.one (name (completeFoot g))
      ({ v with gap := ⟨some r.start, some r.stop⟩, stop := r.stop }.toItem foot.trees)
  else none

/-- What was found before a node and what was found below it are joined. The node of the second
tree takes the place of that of the first. -/
def closeNode (g : Grammar) (left right : Item W) : Option (Firing W) := do
  let a ← NodeVisit.ofItem? left
  let b ← NodeVisit.ofItem? right
  let node ← g.node? a.tree a.node
  let gap ← a.gap.join? b.gap
  if a.isAt .leftAbove ∧ b.corner = Corner.rightBelow.text ∧ a.tree = b.tree ∧ a.node = b.node ∧
      a.stop = b.start ∧ g.isNonterminal node.label then
    let trees := Forest.pair left.trees right.trees fun t u =>
      (u.subtreeAt? a.node).bind fun n => t.replaceAt? a.node n
    Firing.one (name (completeNode g))
      ({ a.moveTo a.node .rightAbove with gap := gap, stop := b.stop }.toItem trees)
  else none

/-- An auxiliary tree adjoins at a node whose subtree spans its gap. -/
def wrap (g : Grammar) (aux target : Item W) : Option (Firing W) := do
  let b ← NodeVisit.ofItem? aux
  let t ← NodeVisit.ofItem? target
  let start ← b.gap.start
  let stop ← b.gap.stop
  if b.isAt .rightAbove ∧ b.node.isRoot ∧ t.isAt .rightBelow ∧ t.start = start ∧ t.stop = stop ∧
      g.isAdjoinable b.tree t.tree t.node then
    let trees := Forest.pair target.trees aux.trees fun u v => u.adjoinAt? t.node v
    Firing.one ("adjoin " ++ b.tree ++ " " ++ TreeCykRule.placeText t.tree t.node)
      ({ t with start := b.start, stop := b.stop, adjoined := true }.toItem trees)
  else none

/-- A finished initial tree fills a substitution node. -/
def fillNode (g : Grammar) (tree : String) (node : Address) (x : Item W) : Option (Firing W) := do
  let v ← NodeVisit.ofItem? x
  let target ← g.tree? tree
  let site ← target.subtreeAt? node
  let source ← g.tree? v.tree
  if v.isAt .rightAbove ∧ v.node.isRoot ∧ v.gap = .absent ∧ g.isInitial v.tree ∧
      source.label = site.label then
    let filled : NodeVisit := { v with tree := tree, gap := .absent }
    Firing.one ("substitute " ++ v.tree ++ " " ++ TreeCykRule.placeText tree node)
      ((filled.moveTo node .rightBelow).toItem (x.trees.filterMap (target.substituteAt? node)))
  else none

/-! ### Moves -/

/-- From below a node to its first child. -/
def goDown (g : Grammar) (x : Item W) : Option (Firing W) := do
  let v ← NodeVisit.ofItem? x
  let child := v.node.child 1
  if v.isAt .leftBelow ∧ (g.node? v.tree child).isSome then
    Firing.one (name (moveDown g)) ((v.moveTo child .leftAbove).toItem x.trees)
  else none

/-- From a node to its next sibling. -/
def goRight (g : Grammar) (x : Item W) : Option (Firing W) := do
  let v ← NodeVisit.ofItem? x
  let sibling ← v.node.rightSibling?
  if v.isAt .rightAbove ∧ (g.node? v.tree sibling).isSome then
    Firing.one (name (moveRight g)) ((v.moveTo sibling .leftAbove).toItem x.trees)
  else none

/-- From a last child to its parent. -/
def goUp (g : Grammar) (x : Item W) : Option (Firing W) := do
  let v ← NodeVisit.ofItem? x
  let sibling ← v.node.rightSibling?
  let parent ← v.node.parent?
  if v.isAt .rightAbove ∧ g.node? v.tree sibling = none then
    Firing.one (name (moveUp g)) ((v.moveTo parent .rightBelow).toItem x.trees)
  else none

/-- The consequences for antecedents. -/
def fire : TreeEarleyRule → List (Item W) → Option (Firing W)
  | scanToken g tokens, [x] => readToken g tokens x
  | scanEmpty g, [x] => readNothing g x
  | predictAdjoinable g, [x] => beginAuxiliaries g x
  | predictNoAdjunction g, [x] => goBelow g x
  | predictAdjoined g, [x] => beginSites g x
  | completeFoot g, [x, y] => Firing.eitherOrder? (fillFoot g) x y
  | completeNode g, [x, y] => Firing.eitherOrder? (closeNode g) x y
  | adjoin g, [x, y] => Firing.eitherOrder? (wrap g) x y
  | moveDown g, [x] => goDown g x
  | moveRight g, [x] => goRight g x
  | moveUp g, [x] => goUp g x
  | predictSubstitution g, [x] => beginInitials g x
  | substitute g tree node, [x] => fillNode g tree node x
  | _, _ => none

end TreeEarleyRule

end DeductiveParsing
