/-
Parsing by spans from the bottom up. An item `[X,i,l]` says that `X` derives the `l` tokens behind
the first `i`.

* `CykRule.binary`, `CykRule.unary`: productions with two symbols and with one;
* `CykRule.general`: productions with any number of symbols, one premise for each;
* `CykRule.spanOrders`: the orders in which spans follow one another.
-/
import DeductiveParsing.Choice.Product
import DeductiveParsing.Inference.Firing
import DeductiveParsing.Item.Forest

namespace DeductiveParsing

/-- The rules of parsing by spans. -/
inductive CykRule where
  | binary (production : Production)
  | unary (production : Production)
  | general (production : Production)
deriving DecidableEq, Repr

namespace CykRule

variable {W : Type}

/-- The production of a rule. -/
def production : CykRule → Production
  | binary p => p
  | unary p => p
  | general p => p

/-- The number of premises. An empty production has one for the empty string. -/
def arity : CykRule → Nat
  | binary _ => 2
  | unary _ => 1
  | general p => max p.rhs.length 1

/-- The name of a rule. -/
def name (rule : CykRule) : String := "complete " ++ rule.production.text

/-- The two names on a right-hand side, or the letters that stand for any two. -/
def twoNames (p : Production) : String × String :=
  match p.rhsNames with
  | [b, c] => (b, c)
  | _ => ("B", "C")

/-- A rule as text. -/
def describe : CykRule → String
  | binary p =>
    let (b, c) := twoNames p
    inference ("[" ++ b ++ ",i,l1] [" ++ c ++ ",i+l1,l2]") p.text ("[" ++ p.lhs ++ ",i,l1+l2]")
  | unary p => inference ("[" ++ p.rhsText ++ ",i,l]") p.text ("[" ++ p.lhs ++ ",i,l]")
  | general p =>
    let premise : String × Nat → String := fun (x, m) =>
      "[" ++ x ++ ",i" ++ (m + 1).repr ++ ",l" ++ (m + 1).repr ++ "]"
    let premises :=
      if p.isEmpty then "[" ++ epsilon ++ ",i,0]"
      else " ".intercalate (p.rhsNames.zipIdx.map premise)
    inference premises p.text ("[" ++ p.lhs ++ ",i1,l1+...]")

/-- The item of a span. -/
def item (name : String) (i l : Nat) (trees : List Tree) : Item W :=
  .withTrees [.symbol name, .index i, .index l] trees

/-- The consequence of two spans, the second of which begins where the first ends. -/
def joinTwo (p : Production) (left right : Item W) : Option (Firing W) := do
  let b ← left.symbol? 0
  let i ← left.index? 1
  let l ← left.index? 2
  let c ← right.symbol? 0
  let j ← right.index? 1
  let m ← right.index? 2
  if i + l = j ∧ p.rhsNames = [b, c] then
    let trees := Forest.fill (Tree.ofProduction p) [left.trees, right.trees]
    Firing.one (name (binary p)) (item p.lhs i (l + m) trees)
  else none

/-- The end of spans that follow one another from `place` on and carry the names of the symbols. -/
def chainEnd? (place : Nat) : List (Item W) → List Symbol → Option Nat
  | [], _ => some place
  | _, [] => some place
  | x :: xs, s :: symbols =>
    if x.symbol? 0 = some s.name ∧ x.index? 1 = some place then
      match x.index? 2 with
      | some l => chainEnd? (place + l) xs symbols
      | none => none
    else none

/-- The trees of the spans that stand for nonterminals. -/
def nonterminalForests (spans : List (Item W)) (symbols : List Symbol) : List (List Tree) :=
  ((spans.zip symbols).filter fun (_, s) => s.isNonterminal).map fun (x, _) => x.trees

/-- The consequence of spans in the order of the right-hand side. -/
def joinAll (p : Production) (spans : List (Item W)) : Option (Item W) := do
  let start ← (← spans.head?).index? 1
  let stop ← chainEnd? start spans p.rhs
  let trees := Forest.fill (Tree.ofProduction p) (nonterminalForests spans p.rhs)
  return item p.lhs start (stop - start) trees

/-- How far spans have come: the symbols that are left, and the place where the next span has to
begin. The first span may begin anywhere. -/
structure Progress where
  symbols : List Symbol
  place : Option Nat

/-- The next span, if it carries the name of the next symbol and begins at the right place. -/
def Progress.step (s : Progress) (x : Item W) : Option Progress := do
  match s.symbols with
  | [] => return s
  | next :: symbols =>
    let i ← x.index? 1
    let l ← x.index? 2
    if s.place.getD i = i ∧ x.symbol? 0 = some next.name then return ⟨symbols, some (i + l)⟩
    else none

/-- The orders of spans in which they stand for the symbols of a production. -/
def spanOrders (p : Production) (spans : List (Item W)) : List (List (Item W)) :=
  Choice.walks Progress.step spans.length ⟨p.rhs, none⟩ spans

/-- The consequence of an empty production at the place of an empty string. -/
def placeEmpty (p : Production) (premise : Item W) : Option (Firing W) := do
  let x ← premise.symbol? 0
  let i ← premise.index? 1
  let l ← premise.index? 2
  if x = epsilon ∧ l = 0 then
    Firing.one (name (general p)) (item p.lhs i 0 [Tree.ofProduction p])
  else none

/-- The consequences for antecedents. -/
def fire : CykRule → List (Item W) → Option (Firing W)
  | binary p, [x, y] => Firing.eitherOrder? (joinTwo p) x y
  | unary p, [premise] => do
    let b ← premise.symbol? 0
    let i ← premise.index? 1
    let l ← premise.index? 2
    if p.rhsNames.head? = some b then
      let trees := Forest.fill (Tree.ofProduction p) [premise.trees]
      Firing.one (name (unary p)) (item p.lhs i l trees)
    else none
  | general p, antecedents =>
    if p.isEmpty then
      match antecedents with
      | [premise] => placeEmpty p premise
      | _ => none
    else
      Firing.ofItems (name (general p))
        (Item.distinctForms ((spanOrders p antecedents).filterMap (joinAll p)))
  | _, _ => none

end CykRule

end DeductiveParsing
