/-
The reader of the bracket format. A text is cut into brackets and labels, and the tokens are read
by the grammar `Term ::= label | '(' label Term* ')'`.

* `Token.scan`: the tokens of a text;
* `Tree.Fault`: why a text is not a tree;
* `Tree.read`: the tree that a text denotes.
-/
import DeductiveParsing.Tree.Printer

namespace DeductiveParsing.Tree

/-- A bracket or a label. -/
inductive Token where
  | opening
  | closing
  | label (text : List Char)
deriving DecidableEq, Repr

/-- Whether a text goes on with a character of a label: neither a bracket nor a blank. -/
def Token.goesOn : List Char → Bool
  | [] => false
  | c :: _ => c ≠ '(' && c ≠ ')' && !Text.isBlank c

/-- The brackets of a text and the maximal runs of other characters that are not blank. -/
def Token.scan : List Char → List Token
  | [] => []
  | '(' :: cs => .opening :: scan cs
  | ')' :: cs => .closing :: scan cs
  | c :: cs =>
    if Text.isBlank c then scan cs
    else
      match goesOn cs, scan cs with
      | true, .label text :: rest => .label (c :: text) :: rest
      | _, rest => .label [c] :: rest

/-- Why a text is not a tree. -/
inductive Fault where
  | missingLabel
  | unclosed (label : String)
  | unexpectedClosing
  | empty
  | trailing (tree : String)
deriving DecidableEq, Repr

/-- The wording of a fault. -/
def Fault.message : Fault → String
  | .missingLabel => "expected a label after ("
  | .unclosed label => "unclosed ( after " ++ label
  | .unexpectedClosing => "unexpected )"
  | .empty => "empty tree"
  | .trailing tree => "trailing input after tree " ++ tree

/-- The node of a label: a foot, if the label ends in a star. -/
def nodeOf (label : List Char) : Tree :=
  match label.reverse with
  | '*' :: rest => footLeaf (String.ofList rest.reverse)
  | _ => leaf (String.ofList label)

/-- A bracket that is still open: its label and the children read so far, the last one first. -/
structure Frame where
  node : Tree
  children : List Tree

/-- The tree of a bracket that is closed. -/
def Frame.close (f : Frame) : Tree := { f.node with children := f.children.reverse }

/-- Reads the rest of the innermost open bracket `top` and of the brackets around it. The result is
the tree of the outermost bracket with the tokens behind it. -/
def readBrackets (top : Frame) (around : List Frame) :
    List Token → Except Fault (Tree × List Token)
  | [] => .error (.unclosed top.node.label)
  | .label l :: rest => readBrackets { top with children := nodeOf l :: top.children } around rest
  | .opening :: .label l :: rest => readBrackets ⟨nodeOf l, []⟩ (top :: around) rest
  | .opening :: _ => .error .missingLabel
  | .closing :: rest =>
    match around with
    | [] => .ok (top.close, rest)
    | next :: others =>
      readBrackets { next with children := top.close :: next.children } others rest

/-- Reads the first tree of a sequence of tokens; the result has the tokens behind it. -/
def readFirst : List Token → Except Fault (Tree × List Token)
  | [] => .error .empty
  | .closing :: _ => .error .unexpectedClosing
  | .label l :: rest => .ok (nodeOf l, rest)
  | .opening :: .label l :: rest => readBrackets ⟨nodeOf l, []⟩ [] rest
  | .opening :: _ => .error .missingLabel

/-- Reads a tree. -/
def read (s : String) : Except Fault Tree := do
  let (tree, rest) ← readFirst (Token.scan s.toList)
  if rest.isEmpty then return tree else throw (.trailing tree.text)

end DeductiveParsing.Tree
