/-
Gorn addresses: the root of a tree has the empty path, and a child extends its parent's path by its
place among the siblings, counted from one.

* `Address`: a path from the root to a node;
* `Address.child`, `Address.parent?`, `Address.rightSibling?`: the moves between addresses;
* `Address.text`: the places with points between them, or the letter for the empty string;
* `Address.read`: the reader, which reports the first place that is wrong.
-/
import DeductiveParsing.Text.Blank
import DeductiveParsing.Text.Numeral
import DeductiveParsing.Text.Quoted

namespace DeductiveParsing

/-- The letter that stands for the empty string and for the address of the root. -/
def epsilon : String := "ε"

/-- The path from the root of a tree to a node. -/
structure Address where
  path : List Nat
deriving DecidableEq, Hashable, Ord, Repr, Inhabited

namespace Address

/-- The address of the root. -/
def root : Address := ⟨[]⟩

/-- Whether this is the address of the root. -/
def isRoot (a : Address) : Bool := a.path.isEmpty

/-- The address of the `n`th child. -/
def child (a : Address) (n : Nat) : Address := ⟨a.path ++ [n]⟩

/-- The address of the parent; the root has none. -/
def parent? (a : Address) : Option Address :=
  if a.isRoot then none else some ⟨a.path.dropLast⟩

/-- The place among the siblings; the root has none. -/
def place? (a : Address) : Option Nat := a.path.getLast?

/-- The address that the next sibling would have; the root has no siblings. -/
def rightSibling? (a : Address) : Option Address :=
  a.place?.map fun n => ⟨a.path.dropLast ++ [n + 1]⟩

/-- An address as text. -/
def text (a : Address) : String :=
  if a.isRoot then epsilon else ".".intercalate (a.path.map Nat.repr)

/-- Why a text is not an address. -/
inductive Fault where
  | badPlace (segment address : String)
  | zeroPlace (address : String)
deriving DecidableEq, Repr

/-- The wording of a fault. -/
def Fault.message : Fault → String
  | .badPlace segment address =>
    "bad gorn address segment " ++ Text.quoted segment ++ " in " ++ address
  | .zeroPlace address => "gorn address segments start at 1: " ++ address

/-- Reads one place of the address that is written `whole`. -/
def readPlace (whole segment : List Char) : Except Fault Nat :=
  match Text.readIndex? segment with
  | none => .error (.badPlace (String.ofList segment) (String.ofList whole))
  | some 0 => .error (.zeroPlace (String.ofList whole))
  | some n => .ok n

/-- Reads an address. Blanks at the ends do not count, and no text at all is the root. -/
def read (s : String) : Except Fault Address := do
  let whole := Text.trim s.toList
  if whole.isEmpty || String.ofList whole == epsilon then return root
  return ⟨← (Text.pieces '.' whole).mapM (readPlace whole)⟩

end Address

end DeductiveParsing
