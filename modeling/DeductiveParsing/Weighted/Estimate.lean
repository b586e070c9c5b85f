/-
Estimates of costs from lengths alone, for a grammar in Chomsky normal form: how cheaply a name can
derive any `l` tokens, and how cheaply the rest of an input of `n` tokens can be derived around
it. Since they leave out what the tokens are, the estimates never exceed the true costs.

* `insideTable`: the costs of names over lengths;
* `outsideTable`: the costs around names over lengths, by the number of tokens before them;
* `Estimates`: both tables for inputs of one length.
-/
import Std.Data.HashMap
import DeductiveParsing.Weighted.Grammar

namespace DeductiveParsing.Weighted

variable {W : Type} [Weight W]

/-- A binary production with its cost. -/
structure BinaryCost (W : Type) where
  lhs : String
  left : String
  right : String
  cost : W

/-- The cost of a binary production. -/
def binaryCost? (p : Production W) : Option (BinaryCost W) :=
  match p.production.isBinary, p.production.rhsNames with
  | true, [b, c] => some ⟨p.production.lhs, b, c, Weight.cost p.weight⟩
  | _, _ => none

/-- The costs of names over lengths. -/
abbrev InsideTable (W : Type) := Std.HashMap (String × Nat) W

/-- The costs around names, by the number of tokens before them and their lengths. -/
abbrev OutsideTable (W : Type) := Std.HashMap (String × Nat × Nat) W

/-- The table in which the cost of a cell is at most `cost`. A cell without a cost is infinite. -/
def relax {K : Type} [BEq K] [Hashable K] (table : Std.HashMap K W) (cell : K) (cost : W) :
    Std.HashMap K W :=
  let old := table.getD cell Weight.infinite
  table.insert cell (if Weight.less cost old then cost else old)

/-! ### Inside -/

/-- The costs of lexical productions. -/
def insideLexical (g : Grammar W) : InsideTable W :=
  (g.productions.filter fun p => p.production.isLexical).foldl
    (fun table p => relax table (p.production.lhs, 1) (Weight.cost p.weight)) ∅

/-- Relaxes the cell of a production's left-hand side over `l` tokens, the first `k` of which are
derived by its first name. -/
def insideStep (l : Nat) (b : BinaryCost W) (table : InsideTable W) (k : Nat) : InsideTable W :=
  match table[(b.left, k)]?, table[(b.right, l - k)]? with
  | some x, some y => relax table (b.lhs, l) (Weight.add (Weight.add b.cost x) y)
  | _, _ => table

/-- The lengths from two to `n`. -/
def longLengths (n : Nat) : List Nat := List.range' 2 (n - 1)

/-- The lengths that the first of two parts of `l` tokens can have. -/
def firstLengths (l : Nat) : List Nat := List.range' 1 (l - 1)

/-- The costs over `l` tokens. -/
def insideLength (binary : List (BinaryCost W)) (table : InsideTable W) (l : Nat) : InsideTable W :=
  binary.foldl (fun table b => (firstLengths l).foldl (insideStep l b) table) table

/-- The costs of names over lengths of at most `n`. -/
def insideTable (g : Grammar W) (n : Nat) : InsideTable W :=
  (longLengths n).foldl (insideLength (g.productions.filterMap binaryCost?)) (insideLexical g)

/-! ### Outside -/

/-- Relaxes the cells of the two parts of a production over the `l` tokens behind the first `i`, of
which the first part has `k`. The cost around the production is `out`. -/
def outsideStep (inside : InsideTable W) (i l : Nat) (b : BinaryCost W) (out : W)
    (table : OutsideTable W) (k : Nat) : OutsideTable W :=
  let table :=
    match inside[(b.right, l - k)]? with
    | some y => relax table (b.left, i, k) (Weight.add (Weight.add out b.cost) y)
    | none => table
  match inside[(b.left, k)]? with
  | some x => relax table (b.right, i + k, l - k) (Weight.add (Weight.add out b.cost) x)
  | none => table

/-- Relaxes the cells below a production over the `l` tokens behind the first `i`. -/
def outsideBelow (inside : InsideTable W) (i l : Nat) (table : OutsideTable W)
    (b : BinaryCost W) : OutsideTable W :=
  match table[(b.lhs, i, l)]? with
  | some out => (firstLengths l).foldl (outsideStep inside i l b out) table
  | none => table

/-- Relaxes the cells below all spans of `l` tokens. -/
def outsideLength (binary : List (BinaryCost W)) (inside : InsideTable W) (n : Nat)
    (table : OutsideTable W) (l : Nat) : OutsideTable W :=
  (List.range (n - l + 1)).foldl
    (fun table i => binary.foldl (outsideBelow inside i l) table) table

/-- The costs around names in inputs of `n` tokens. Longer spans come first. -/
def outsideTable (g : Grammar W) (inside : InsideTable W) (n : Nat) : OutsideTable W :=
  (longLengths n).reverse.foldl
    (outsideLength (g.productions.filterMap binaryCost?) inside n)
    ((∅ : OutsideTable W).insert (g.start, 0, n) Weight.zero)

/-! ### Estimates -/

/-- The estimates for inputs of `length` tokens. -/
structure Estimates (W : Type) where
  length : Nat
  inside : InsideTable W
  outside : OutsideTable W

namespace Estimates

/-- The estimates of a grammar in Chomsky normal form. -/
def ofGrammar (g : Grammar W) (n : Nat) : Estimates W :=
  let inside := insideTable g n
  ⟨n, inside, outsideTable g inside n⟩

omit [Weight W] in
/-- The least cost of a name over `l` tokens. -/
def inside? (e : Estimates W) (name : String) (l : Nat) : Option W := e.inside[(name, l)]?

omit [Weight W] in
/-- The least cost around a name over `l` tokens behind the first `i`, if an input has room for it
there. -/
def outside? (e : Estimates W) (name : String) (i l : Nat) : Option W :=
  if i + l ≤ e.length then e.outside[(name, i, l)]? else none

end Estimates

end DeductiveParsing.Weighted
