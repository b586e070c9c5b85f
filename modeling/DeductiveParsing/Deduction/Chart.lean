/-
Charts: all items derived so far, in the order in which they were added, each with the ways in which
it was derived. An item keeps its position, and its form is found through an index.

* `Derivation`: the name of a rule and the positions of the antecedents;
* `Chart`: the entries and the index of their forms;
* `Chart.push`, `addDerivation`, `mergeTrees`, `replace`: the changes that a deduction makes;
* `Chart.text`: a chart as text.
-/
import Std.Data.HashMap
import DeductiveParsing.Item.Basic
import DeductiveParsing.Item.Forest

namespace DeductiveParsing

/-- One way in which an item was derived: the name under which a rule fired and the positions of its
antecedents in increasing order. An axiom has no antecedents. -/
structure Derivation where
  rule : String
  antecedents : List Nat
deriving DecidableEq, Repr, Inhabited

/-- An item with its derivations. -/
structure Entry (W : Type) where
  item : Item W
  derivations : List Derivation
deriving Repr, Inhabited

namespace Entry

variable {W : Type}

/-- Records a derivation, unless it is known. -/
def addDerivation (e : Entry W) (d : Derivation) : Entry W :=
  if e.derivations.contains d then e else { e with derivations := e.derivations ++ [d] }

/-- Adds trees to the item. -/
def mergeTrees (e : Entry W) (new : List Tree) : Entry W :=
  { e with item := { e.item with trees := Forest.merge e.item.trees new } }

end Entry

/-- The entries in the order in which they were added, and the positions of their forms. -/
structure Chart (W : Type) where
  entries : Array (Entry W)
  index : Std.HashMap Form Nat

namespace Chart

variable {W : Type}

/-- A chart without entries. -/
def empty : Chart W := ⟨#[], ∅⟩

/-- The number of entries. -/
def size (c : Chart W) : Nat := c.entries.size

/-- The item at a position. -/
def item? (c : Chart W) (i : Nat) : Option (Item W) := (c.entries[i]?).map Entry.item

/-- The position of an item, which is that of its form. -/
def position? (c : Chart W) (x : Item W) : Option Nat := c.index[x.form]?

/-- Adds an item behind the others. -/
def push (c : Chart W) (x : Item W) (d : Derivation) : Chart W :=
  ⟨c.entries.push ⟨x, [d]⟩, c.index.insert x.form c.entries.size⟩

/-- Changes the entry at a position. -/
def modify (c : Chart W) (i : Nat) (change : Entry W → Entry W) : Chart W :=
  { c with entries := c.entries.modify i change }

/-- Records a derivation of the item at a position, unless it is known. -/
def addDerivation (c : Chart W) (i : Nat) (d : Derivation) : Chart W :=
  c.modify i fun e => e.addDerivation d

/-- Adds trees to the item at a position. -/
def mergeTrees (c : Chart W) (i : Nat) (new : List Tree) : Chart W :=
  c.modify i fun e => e.mergeTrees new

/-- Puts a better item with the same form in the place of the one at a position. The derivations of
that are dropped. -/
def replace (c : Chart W) (i : Nat) (x : Item W) (d : Derivation) : Chart W :=
  c.modify i fun _ => ⟨x, [d]⟩

/-- The number of trees that the item at a position carries. -/
def treeCount (c : Chart W) (i : Nat) : Nat := ((c.item? i).map fun x => x.trees.length).getD 0

/-- A chart as text: the items with their positions, counted from one. -/
def text [Weight W] (c : Chart W) : String :=
  String.join <| c.entries.toList.zipIdx.map fun (e, i) =>
    (i + 1).repr ++ ": " ++ e.item.text ++ "\n"

end Chart

end DeductiveParsing
