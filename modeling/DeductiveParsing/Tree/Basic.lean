/-
Ordered labelled trees, both the elementary trees of a tree-adjoining grammar and the derivation
trees that parsing builds. A mark on a node makes it a foot, the place at which an auxiliary tree
takes up what it is adjoined to.

* `Tree`: the type, with decidable equality;
* `Tree.subtreeAt?`: the subtree at an address;
* `Tree.nodes`: all subtrees with their addresses, in preorder;
* `Tree.footAddress?`: the first foot;
* `Tree.hasProperSubtree`: occurrence below the root.
-/
import DeductiveParsing.Tree.Address

namespace DeductiveParsing

/-- An ordered labelled tree, some of whose nodes are feet. -/
structure Tree where
  label : String
  foot : Bool
  children : List Tree
deriving Repr, Inhabited

namespace Tree

/-! ### Equality -/

mutual

/-- Decides whether two trees are equal. -/
def decideEq : (t u : Tree) → Decidable (t = u)
  | ⟨l, f, cs⟩, ⟨l', f', cs'⟩ =>
    if hl : l = l' then
      if hf : f = f' then
        match decideEqForest cs cs' with
        | isTrue hcs => isTrue (by rw [hl, hf, hcs])
        | isFalse hcs => isFalse fun h => hcs (Tree.mk.inj h).2.2
      else isFalse fun h => hf (Tree.mk.inj h).2.1
    else isFalse fun h => hl (Tree.mk.inj h).1

/-- Decides whether two sequences of trees are equal. -/
def decideEqForest : (ts us : List Tree) → Decidable (ts = us)
  | [], [] => isTrue rfl
  | [], _ :: _ => isFalse nofun
  | _ :: _, [] => isFalse nofun
  | t :: ts, u :: us =>
    match decideEq t u with
    | isTrue ht =>
      match decideEqForest ts us with
      | isTrue hts => isTrue (by rw [ht, hts])
      | isFalse hts => isFalse fun h => hts (List.cons.inj h).2
    | isFalse ht => isFalse fun h => ht (List.cons.inj h).1

end

instance : DecidableEq Tree := decideEq

/-! ### Nodes -/

/-- A tree of one node that is no foot. -/
def leaf (label : String) : Tree := ⟨label, false, []⟩

/-- A tree of one foot. -/
def footLeaf (label : String) : Tree := ⟨label, true, []⟩

/-- A tree whose root is no foot. -/
def branch (label : String) (children : List Tree) : Tree := ⟨label, false, children⟩

/-- Whether the root has no children. -/
def isLeaf (t : Tree) : Bool := t.children.isEmpty

/-- Whether the tree is a single node for the empty string. -/
def isEpsilon (t : Tree) : Bool := t.isLeaf && (t.label == epsilon || t.label == "")

/-- The subtree at the end of a path. -/
def subtreeOn? : Tree → List Nat → Option Tree
  | t, [] => some t
  | _, 0 :: _ => none
  | t, (n + 1) :: path =>
    match t.children[n]? with
    | some c => c.subtreeOn? path
    | none => none

/-- The subtree at an address. -/
def subtreeAt? (t : Tree) (a : Address) : Option Tree := t.subtreeOn? a.path

mutual

/-- The subtrees of a tree that stands at address `a`, with their addresses, in preorder. -/
def nodesFrom (a : Address) : Tree → List (Address × Tree)
  | ⟨l, f, cs⟩ => (a, ⟨l, f, cs⟩) :: nodesAmong a 1 cs

/-- The subtrees of the children of the node at `a`, of which the first has place `n`. -/
def nodesAmong (a : Address) (n : Nat) : List Tree → List (Address × Tree)
  | [] => []
  | c :: cs => nodesFrom (a.child n) c ++ nodesAmong a (n + 1) cs

end

/-- All subtrees with their addresses, in preorder. -/
def nodes (t : Tree) : List (Address × Tree) := nodesFrom .root t

/-- The address of the first subtree in preorder that satisfies `p`. -/
def find? (t : Tree) (p : Tree → Bool) : Option Address :=
  (t.nodes.find? fun (_, u) => p u).map Prod.fst

/-- The address of the first foot. -/
def footAddress? (t : Tree) : Option Address := t.find? Tree.foot

mutual

/-- Whether `u` occurs below the root. -/
def hasProperSubtree : Tree → Tree → Bool
  | ⟨_, _, cs⟩, u => occursAmong cs u

/-- Whether `u` is one of the trees of a sequence or occurs in one of them. -/
def occursAmong : List Tree → Tree → Bool
  | [], _ => false
  | c :: cs, u => c == u || c.hasProperSubtree u || occursAmong cs u

end

end Tree

end DeductiveParsing
