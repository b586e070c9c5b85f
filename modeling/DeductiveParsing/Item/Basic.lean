/-
Items, the facts that parsing derives. An item is a form, which is a sequence of fields, and carries
a weight and derivation trees along. Two items with one form are the same fact.

* `Field`: one component of a form;
* `Item`: a form with its weight and its trees;
* `Item.symbol?`, `Item.index?` and the like: the field at a place, if it is of that sort;
* `Item.text`: an item as text.
-/
import DeductiveParsing.Choice.Distinct
import DeductiveParsing.Item.Dotted
import DeductiveParsing.Weight.Basic

namespace DeductiveParsing

/-- One component of an item: a symbol, the name of a tree or the mark of a position, an index, an
index that is not set, a truth value, a sequence such as a stack, a dotted production or an address.
Fields are ordered by their sort, then by their contents. -/
inductive Field where
  | symbol (name : String)
  | index (n : Nat)
  | gap
  | flag (value : Bool)
  | sequence (names : List String)
  | dotted (d : Dotted)
  | address (a : Address)
deriving DecidableEq, Hashable, Ord, Repr, Inhabited

namespace Field

/-- An index that may not be set. -/
def ofIndex? : Option Nat → Field
  | some n => index n
  | none => gap

/-- A field as text. -/
def text : Field → String
  | symbol name => name
  | index n => n.repr
  | gap => "-"
  | flag value => if value then "1" else "0"
  | sequence [] => epsilon
  | sequence names => " ".intercalate names
  | dotted d => d.text
  | address a => a.text

end Field

/-- The form of a fact. -/
abbrev Form := List Field

/-- A fact with the weight of its best derivation and its derivation trees. -/
structure Item (W : Type) where
  form : Form
  weight : Option W
  trees : List Tree
deriving Repr, Inhabited

namespace Item

variable {W : Type}

/-- An item that carries nothing. -/
def ofForm (form : Form) : Item W := ⟨form, none, []⟩

/-- An item that carries trees. -/
def withTrees (form : Form) (trees : List Tree) : Item W := ⟨form, none, trees⟩

/-- An item that carries a weight and trees. -/
def weighted (form : Form) (weight : W) (trees : List Tree) : Item W := ⟨form, some weight, trees⟩

/-- The number of fields. -/
def size (x : Item W) : Nat := x.form.length

/-- The field at a place. -/
def field? (x : Item W) (i : Nat) : Option Field := x.form[i]?

/-- The symbol at a place. -/
def symbol? (x : Item W) (i : Nat) : Option String :=
  match x.field? i with
  | some (.symbol name) => some name
  | _ => none

/-- The index at a place. -/
def index? (x : Item W) (i : Nat) : Option Nat :=
  match x.field? i with
  | some (.index n) => some n
  | _ => none

/-- The index at a place that may not be set. -/
def optionalIndex? (x : Item W) (i : Nat) : Option (Option Nat) :=
  match x.field? i with
  | some (.index n) => some (some n)
  | some .gap => some none
  | _ => none

/-- The truth value at a place. -/
def flag? (x : Item W) (i : Nat) : Option Bool :=
  match x.field? i with
  | some (.flag value) => some value
  | _ => none

/-- The sequence at a place. -/
def sequence? (x : Item W) (i : Nat) : Option (List String) :=
  match x.field? i with
  | some (.sequence names) => some names
  | _ => none

/-- The dotted production at a place. -/
def dotted? (x : Item W) (i : Nat) : Option Dotted :=
  match x.field? i with
  | some (.dotted d) => some d
  | _ => none

/-- The address at a place. -/
def address? (x : Item W) (i : Nat) : Option Address :=
  match x.field? i with
  | some (.address a) => some a
  | _ => none

/-- The items of a list whose form no earlier item has. -/
def distinctForms (items : List (Item W)) : List (Item W) := Choice.distinctBy Item.form items

/-- The fields of a form in brackets. -/
def formText (form : Form) : String := "[" ++ ",".intercalate (form.map Field.text) ++ "]"

/-- An item as text: its weight, if it has one, and its form. -/
def text [Weight W] (x : Item W) : String :=
  match x.weight with
  | some w => Weight.text w ++ " : " ++ formText x.form
  | none => formText x.form

end Item

end DeductiveParsing
