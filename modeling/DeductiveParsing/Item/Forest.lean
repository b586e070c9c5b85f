/-
Forests: the lists of derivation trees that items carry, without repetitions.

* `Forest.merge`: a forest with the new trees of another; trees that only repeat a cycle stay out;
* `Forest.fill`: one tree of each forest put into a tree, in every way;
* `Forest.pair`: two forests combined tree by tree.
-/
import DeductiveParsing.Choice.Distinct
import DeductiveParsing.Choice.Product
import DeductiveParsing.Tree.Surgery

namespace DeductiveParsing.Forest

/-- Whether a tree stays out of a forest: it is there already, or one of the forest's trees occurs
below its root, so that it only repeats a cycle. -/
def excludes (forest : List Tree) (t : Tree) : Bool :=
  forest.contains t || forest.any fun u => t.hasProperSubtree u

/-- Adds trees to a forest, one by one, unless they stay out of it. -/
def merge (forest new : List Tree) : List Tree :=
  new.foldl (fun grown t => if excludes grown t then grown else grown ++ [t]) forest

/-- Substitutes trees one after the other, each at the first open leaf with its root's label. -/
def substituteAll? (base : Tree) (trees : List Tree) : Option Tree :=
  trees.foldlM Tree.substituteLeftmost? base

/-- Every way to substitute one tree of each forest into `base`. A way for which a tree finds no
place is left out. -/
def fillings (base : Tree) (forests : List (List Tree)) : List Tree :=
  (Choice.choices forests).filterMap (substituteAll? base)

/-- The trees that arise from substituting one tree of each forest into `base`. -/
def fill (base : Tree) (forests : List (List Tree)) : List Tree :=
  Choice.distinct (fillings base forests)

/-- The trees that arise from combining a tree of `ts` with a tree of `us`. -/
def pair (ts us : List Tree) (combine : Tree → Tree → Option Tree) : List Tree :=
  Choice.distinct (ts.flatMap fun t => us.filterMap (combine t))

end DeductiveParsing.Forest
