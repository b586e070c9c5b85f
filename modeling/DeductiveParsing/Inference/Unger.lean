/-
Parsing by splitting the input. An item `[•X,i,j]` asks whether `X` derives the tokens between `i`
and `j`, and `[X•,i,j]` answers that it does.

* `UngerRule.predict`: a production asks for its symbols, for every split of the span;
* `UngerRule.scan`: a question about one token;
* `UngerRule.complete`: a question is answered by answers for the symbols of a production;
* `UngerRule.partitions`: the splits of a span;
* `UngerRule.answerOrders`: the orders of antecedents in which answers follow a question.
-/
import DeductiveParsing.Choice.Product
import DeductiveParsing.Inference.Firing

namespace DeductiveParsing

/-- The rules of parsing by splits. -/
inductive UngerRule where
  | predict (production : Production)
  | scan (tokens : List String)
  | complete (production : Production)
deriving DecidableEq, Repr

namespace UngerRule

variable {W : Type}

/-- The question about a name. -/
def asked (name : String) : String := "•" ++ name

/-- The answer for a name. -/
def answered (name : String) : String := name ++ "•"

/-- The name that a question is about. -/
def askedName? (name : String) : Option String :=
  match name.toList with
  | '•' :: rest => some (String.ofList rest)
  | _ => none

/-- The number of premises. -/
def arity : UngerRule → Nat
  | predict _ => 1
  | scan _ => 1
  | complete p => p.rhs.length + 1

/-- The name of a rule. -/
def name : UngerRule → String
  | predict p => "predict " ++ p.text
  | scan _ => "scan"
  | complete p => "complete " ++ p.text

/-- The questions or answers for the symbols of a production, between numbered places. -/
def spansText (p : Production) (wording : String → String) : String :=
  " ".intercalate <| p.rhsNames.zipIdx.map fun (x, m) =>
    "[" ++ wording x ++ ",i" ++ m.repr ++ ",i" ++ (m + 1).repr ++ "]"

/-- A rule as text. -/
def describe : UngerRule → String
  | predict p =>
    inference ("[" ++ asked p.lhs ++ ",i0,ik]") (p.text ++ ", i0 < i1 < ... < ik")
      (spansText p asked)
  | scan _ => inference "[•a,i,i+1]" "w_i+1 = a" "[a•,i,i+1]"
  | complete p =>
    inference ("[" ++ asked p.lhs ++ ",i0,ik] " ++ spansText p answered) p.text
      ("[" ++ answered p.lhs ++ ",i0,ik]")

/-- The lengths that the first of several symbols can have, where `room` tokens are left for it. A
terminal is one token long. -/
def lengths (s : Symbol) (room : Nat) : List Nat :=
  if s.isTerminal then (if room = 0 then [] else [1]) else List.range' 1 room

/-- The ways to split the tokens between `i` and `j` into spans of at least one token, one for each
symbol. -/
def partitions : List Symbol → Nat → Nat → List (List (Nat × Nat))
  | [], i, j => if i = j then [[]] else []
  | s :: rest, i, j =>
    (lengths s (j - i - rest.length)).flatMap fun l =>
      (partitions rest (i + l) j).map ((i, i + l) :: ·)

/-- The item of a question or an answer. -/
def item (name : String) (i j : Nat) : Item W := .ofForm [.symbol name, .index i, .index j]

/-- The questions of a production about a span. -/
def questions (p : Production) (i j : Nat) : List (Item W) :=
  let splits := if p.isEmpty then [] else partitions p.rhs i j
  Item.distinctForms <| splits.flatMap fun spans =>
    (p.rhsNames.zip spans).map fun (x, place, stop) => item (asked x) place stop

/-- Whether answers for the given names follow one another from `place` to `stop`. -/
def chained (place stop : Nat) : List (Item W) → List String → Bool
  | [], _ => place == stop
  | _, [] => place == stop
  | x :: xs, part :: parts =>
    if x.symbol? 0 = some part ∧ x.index? 1 = some place then
      match x.index? 2 with
      | some next => chained next stop xs parts
      | none => false
    else false

/-- The answer for a question and the answers for the symbols of a production, in this order. -/
def answer? (p : Production) : List (Item W) → Option (Firing W)
  | question :: answers => do
    let i ← question.index? 1
    let j ← question.index? 2
    if question.symbol? 0 = some (asked p.lhs) ∧ chained i j answers (p.rhsNames.map answered) then
      Firing.one (name (complete p)) (item (answered p.lhs) i j)
    else none
  | [] => none

/-- How far the antecedents have come: not even to the question, or to the place where the next
answer has to begin, with the names of the answers that are left. -/
inductive Progress where
  | unasked
  | awaiting (place : Nat) (parts : List String)

/-- The next antecedent: the question first, then the answers, each where the one before ends. -/
def Progress.step (p : Production) (s : Progress) (x : Item W) : Option Progress :=
  match s with
  | unasked =>
    if x.symbol? 0 = some (asked p.lhs) then
      (x.index? 1).map fun i => awaiting i (p.rhsNames.map answered)
    else none
  | awaiting place [] => some (awaiting place [])
  | awaiting place (part :: parts) =>
    if x.index? 1 = some place ∧ x.symbol? 0 = some part then
      (x.index? 2).map fun next => awaiting next parts
    else none

/-- The orders of antecedents in which answers that follow one another stand behind a question. -/
def answerOrders (p : Production) (antecedents : List (Item W)) : List (List (Item W)) :=
  Choice.walks (Progress.step p) antecedents.length .unasked antecedents

/-- The consequences for antecedents. -/
def fire : UngerRule → List (Item W) → Option (Firing W)
  | predict p, [premise] => do
    let x ← premise.symbol? 0
    let i ← premise.index? 1
    let j ← premise.index? 2
    if x = asked p.lhs then Firing.ofItems (name (predict p)) (questions p i j) else none
  | scan tokens, [premise] => do
    let x ← premise.symbol? 0
    let i ← premise.index? 1
    let j ← premise.index? 2
    let a ← askedName? x
    if j = i + 1 ∧ tokens[i]? = some a then
      Firing.one ("scan " ++ a) (item (answered a) i j)
    else none
  | complete p, antecedents => (answerOrders p antecedents).findSome? (answer? p)
  | _, _ => none

end UngerRule

end DeductiveParsing
