/-
Grammars of any kind and the files that hold them. The extension of a file's name says which kind of
grammar it holds.

* `FormalGrammar`: a grammar of any kind;
* `Formalism.ofPath`: the kind of the grammar in a file;
* `FormalGrammar.ofFile`: the grammar in a file.
-/
import DeductiveParsing.GrammarFile.Printer
import DeductiveParsing.GrammarFile.Reader
import DeductiveParsing.Schema.Fault

namespace DeductiveParsing

/-! ### Names of files -/

/-- The components of a path that name something: neither nothing nor the directory itself. -/
def pathNames (path : String) : List (List Char) :=
  (Text.pieces '/' path.toList).filter fun name => !name.isEmpty && name != ['.']

/-- The extension of a name: what stands behind the last point, if something stands before it. -/
def extensionOf (name : List Char) : List Char :=
  match (Text.pieces '.' name).reverse with
  | [] => []
  | [_] => []
  | last :: before =>
    if name = ['.', '.'] ∨ before = [[]] then [] else last

/-- The extension of the file at a path. -/
def pathExtension (path : String) : String :=
  match (pathNames path).getLast? with
  | some name => String.ofList (extensionOf name)
  | none => ""

/-- The kind of the grammar in the file at a path. -/
def Formalism.ofPath (path : String) : Except GrammarFile.Fault Formalism :=
  match pathExtension path with
  | "cfg" => .ok .contextFree
  | "pcfg" => .ok .weighted
  | "tag" => .ok .treeAdjoining
  | other => .error (.unknownExtension other)

/-! ### Grammars -/

/-- A grammar of any kind. -/
inductive FormalGrammar (W : Type) where
  | contextFree (grammar : ContextFree.Grammar)
  | weighted (grammar : Weighted.Grammar W)
  | treeAdjoining (grammar : TreeAdjoining.Grammar)
deriving Repr

namespace FormalGrammar

variable {W : Type}

/-- The kind of a grammar. -/
def formalism : FormalGrammar W → Formalism
  | contextFree _ => .contextFree
  | weighted _ => .weighted
  | treeAdjoining _ => .treeAdjoining

variable [Weight W]

/-- A grammar as text. -/
def text : FormalGrammar W → String
  | contextFree g => GrammarFile.textOfContextFree g
  | weighted g => GrammarFile.textOfWeighted g
  | treeAdjoining g => GrammarFile.textOfTreeAdjoining g

/-- Reads a grammar of a given kind. -/
def read (kind : Formalism) (file : String) : Except GrammarFile.Fault (FormalGrammar W) :=
  match kind with
  | .contextFree => (GrammarFile.readContextFree file).map contextFree
  | .weighted => (GrammarFile.readWeightedGrammar file).map weighted
  | .treeAdjoining => (GrammarFile.readTreeAdjoining file).map treeAdjoining

/-- The text of a file with the given contents. -/
def decode (contents : Option ByteArray) : Except GrammarFile.Unreadable String :=
  match contents with
  | none => .error .missing
  | some bytes =>
    match String.fromUTF8? bytes with
    | some text => .ok text
    | none => .error .notUnicode

/-- Reads the grammar in the file at a path. Its name is looked at before its contents. -/
def ofFile (path : String) (contents : Option ByteArray) :
    Except GrammarFile.Fault (FormalGrammar W) := do
  let kind ← Formalism.ofPath path
  match decode contents with
  | .error cause => throw (.unreadable cause)
  | .ok text => read kind text

end FormalGrammar

end DeductiveParsing
