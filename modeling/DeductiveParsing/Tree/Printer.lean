/-
Trees in bracket format: a leaf is its label, any other tree a bracket with the label and the
children, and a star behind the label marks a foot.

* `Tree.text`: a tree as text.
-/
import DeductiveParsing.Tree.Basic

namespace DeductiveParsing.Tree

/-- The label of a node with the mark of a foot. -/
def markedLabel (label : String) (foot : Bool) : String :=
  if foot then label ++ "*" else label

mutual

/-- A tree in bracket format. -/
def text : Tree → String
  | ⟨label, foot, []⟩ => markedLabel label foot
  | ⟨label, foot, c :: cs⟩ => "(" ++ markedLabel label foot ++ textAmong (c :: cs) ++ ")"

/-- The children of a node, with a blank before each. -/
def textAmong : List Tree → String
  | [] => ""
  | c :: cs => " " ++ c.text ++ textAmong cs

end

end DeductiveParsing.Tree
