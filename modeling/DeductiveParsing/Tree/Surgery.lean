/-
Operations that put one tree into another.

* `Tree.replaceAt?`: any tree in the place of a subtree;
* `Tree.substituteAt?`: a tree in the place of a leaf with its root's label;
* `Tree.substituteLeftmost?`: the same in the first open leaf with that label;
* `Tree.adjoinAt?`: an auxiliary tree around a subtree, which moves under the foot.
-/
import DeductiveParsing.Tree.Basic

namespace DeductiveParsing.Tree

/-- The tree with `u` in the place of the subtree at the end of a path, if there is one. -/
def replaceOn? : Tree → List Nat → Tree → Option Tree
  | _, [], u => some u
  | _, 0 :: _, _ => none
  | t, (n + 1) :: path, u =>
    match t.children[n]? with
    | some c => (c.replaceOn? path u).map fun c' => { t with children := t.children.set n c' }
    | none => none

/-- The tree with `u` in the place of the subtree at an address, if there is one. -/
def replaceAt? (t : Tree) (a : Address) (u : Tree) : Option Tree := t.replaceOn? a.path u

/-- An open leaf has no children, is no foot and does not stand for the empty string. -/
def isOpen (t : Tree) : Bool := t.isLeaf && !t.foot && !t.isEpsilon

/-- Puts `u` in the place of the first open leaf that has the label of its root. -/
def substituteLeftmost? (t u : Tree) : Option Tree := do
  let a ← t.find? fun v => v.isOpen && v.label == u.label
  t.replaceAt? a u

/-- Puts `u` in the place of the node at `a`, which has to be a leaf with the label of its root. -/
def substituteAt? (t : Tree) (a : Address) (u : Tree) : Option Tree := do
  let target ← t.subtreeAt? a
  if target.isLeaf && target.label == u.label then t.replaceAt? a u else none

/-- Puts `auxiliary` around the subtree at `a`, whose root has to have the label of its root. The
subtree takes the place of the foot and is itself no foot any more. -/
def adjoinAt? (t : Tree) (a : Address) (auxiliary : Tree) : Option Tree := do
  let target ← t.subtreeAt? a
  let foot ← auxiliary.footAddress?
  if auxiliary.label == target.label then
    let wrapped ← auxiliary.replaceAt? foot { target with foot := false }
    t.replaceAt? a wrapped
  else none

end DeductiveParsing.Tree
