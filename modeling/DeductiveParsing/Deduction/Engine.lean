/-
Forward deduction. The axioms of a schema are put into the chart. Then positions are taken off the
agenda, and every rule is tried on the item there together with every choice of other items, until
nothing waits any more. A position waits again when its item gets a better weight or more trees.

* `State`: a chart and an agenda;
* `State.insert`, `State.merge`: how a consequence gets into the chart;
* `State.expand`: all rules tried on one position;
* `seed`, `drain`: the axioms, and the run from there.
-/
import DeductiveParsing.Choice.Product
import DeductiveParsing.Deduction.Agenda
import DeductiveParsing.Deduction.Chart
import DeductiveParsing.Deduction.Policy
import DeductiveParsing.Schema.Basic

namespace DeductiveParsing

/-- Why a run does not end with a chart: it would have to grow past its limit, or there are
positions left after the steps that were allowed. -/
inductive Deduction.Failure where
  | chartLimit (limit : Nat)
  | unfinished
deriving DecidableEq, Repr

/-- The wording of a failure. -/
def Deduction.Failure.message : Deduction.Failure → String
  | .chartLimit limit => "chart grew past its limit of " ++ limit.repr ++ " items"
  | .unfinished => "positions are left on the agenda"

namespace Deduction

/-- What has been derived, and what has still to be expanded. -/
structure State (W : Type) where
  chart : Chart W
  agenda : Agenda

namespace State

variable {W : Type}

/-- Nothing derived yet. -/
def empty : State W := ⟨.empty, .empty⟩

/-- Lets a position wait to be expanded. -/
def requeue (s : State W) (i : Nat) : State W := { s with agenda := s.agenda.add i }

/-- Whether a chart of a given size may not grow any more. -/
def isFull (limit : Option Nat) (size : Nat) : Bool :=
  match limit with
  | some bound => bound ≤ size
  | none => false

/-- Puts a new item into the chart and lets it wait. -/
def insert (settings : Settings) (s : State W) (x : Item W) (d : Derivation) :
    Except Failure (State W) :=
  if isFull settings.limit s.chart.size then .error (.chartLimit (settings.limit.getD 0))
  else .ok (requeue ⟨s.chart.push x d, s.agenda⟩ s.chart.size)

/-- Records one more derivation of the item at a position, and lets it wait if that brings trees. -/
def accumulate (s : State W) (i : Nat) (x : Item W) (d : Derivation) : State W :=
  let before := s.chart.treeCount i
  let chart := (s.chart.addDerivation i d).mergeTrees i x.trees
  if before < chart.treeCount i then requeue ⟨chart, s.agenda⟩ i else ⟨chart, s.agenda⟩

/-- Puts an item in the place of that at a position if the policy prefers its weight. -/
def improve [Weight W] (policy : Policy) (s : State W) (i : Nat) (x : Item W) (d : Derivation) :
    State W :=
  if policy.prefers x.weight ((s.chart.item? i).bind Item.weight) then
    requeue ⟨s.chart.replace i x d, s.agenda⟩ i
  else s

/-- Brings a consequence into the chart. -/
def merge [Weight W] (settings : Settings) (s : State W) (x : Item W) (d : Derivation) :
    Except Failure (State W) :=
  match s.chart.position? x with
  | none => s.insert settings x d
  | some i =>
    match settings.policy with
    | .accumulate => .ok (s.accumulate i x d)
    | policy => .ok (s.improve policy i x d)

/-! ### Applying rules -/

/-- The choices of `needed` positions other than `first` in a chart, each in increasing order. -/
def otherPositions (size first needed : Nat) : List (List Nat) :=
  if needed = 0 then [[]]
  else Choice.selections needed ((List.range size).filter (· ≠ first))

/-- Tries a rule on the items at given positions as they are now. -/
def applyAt [Weight W] (settings : Settings) (rule : Rule W) (s : State W) (positions : List Nat) :
    Except Failure (State W) :=
  match (positions.mapM s.chart.item?).bind rule.fire? with
  | none => .ok s
  | some firing =>
    let d : Derivation := ⟨firing.name, positions.mergeSort⟩
    firing.items.foldlM (fun s x => s.merge settings x d) s

/-- Tries a rule on the item at `first` with every choice of other items. The choices are made
before the rule is tried, so that items which it adds meanwhile are not among them. -/
def applyRule [Weight W] (settings : Settings) (first : Nat) (s : State W) (rule : Rule W) :
    Except Failure (State W) :=
  match rule.arity with
  | 0 => .ok s
  | needed + 1 =>
    (otherPositions s.chart.size first needed).foldlM
      (fun s others => s.applyAt settings rule (first :: others)) s

/-- Tries every rule on the item at a position. -/
def expand [Weight W] (settings : Settings) (schema : Schema W) (first : Nat) (s : State W) :
    Except Failure (State W) :=
  schema.rules.foldlM (applyRule settings first) s

end State

/-! ### Runs -/

variable {W : Type}

/-- Puts an item of an axiom into the chart, unless it is there. -/
def seedItem (settings : Settings) (name : String) (s : State W) (x : Item W) :
    Except Failure (State W) :=
  match s.chart.position? x with
  | some _ => .ok s
  | none => s.insert settings x ⟨name, []⟩

/-- The state with the axioms of a schema. -/
def seed (settings : Settings) (schema : Schema W) : Except Failure (State W) :=
  schema.axioms.foldlM (fun s a => a.items.foldlM (seedItem settings a.name) s) .empty

/-- Expands waiting positions until none is left. At most `fuel` positions are expanded. -/
def drain [Weight W] (settings : Settings) (schema : Schema W) : Nat → State W →
    Except Failure (State W)
  | 0, s =>
    match s.agenda.next? with
    | none => .ok s
    | some _ => .error .unfinished
  | fuel + 1, s =>
    match s.agenda.next? with
    | none => .ok s
    | some (first, agenda) =>
      match State.expand settings schema first ⟨s.chart, agenda⟩ with
      | .ok s' => drain settings schema fuel s'
      | .error failure => .error failure

/-- The last state of a run that expands at most `fuel` positions. -/
def finalState [Weight W] (settings : Settings) (schema : Schema W) (fuel : Nat) :
    Except Failure (State W) :=
  match seed settings schema with
  | .ok s => drain settings schema fuel s
  | .error failure => .error failure

end Deduction

end DeductiveParsing
