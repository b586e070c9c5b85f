/-
What can be wrong with a grammar file.

* `Fault`: the causes, with the number of the line where there is one;
* `Fault.message`: their wording.
-/
import DeductiveParsing.Tree.Reader

namespace DeductiveParsing.GrammarFile

/-- Why the contents of a file cannot be had. -/
inductive Unreadable where
  | missing
  | notUnicode
deriving DecidableEq, Repr

/-- The wording of an unreadable file. -/
def Unreadable.message : Unreadable → String
  | .missing => "No such file or directory (os error 2)"
  | .notUnicode => "stream did not contain valid UTF-8"

/-- Why an entry is no named tree. -/
inductive TreeFault where
  | unnamed
  | unreadable (fault : Tree.Fault)
  | declaredTwice
deriving DecidableEq, Repr

/-- The wording of a tree fault. -/
def TreeFault.message : TreeFault → String
  | .unnamed => "expected name : tree"
  | .unreadable fault => fault.message
  | .declaredTwice => "tree name declared twice"

/-- Why the feet of a tree do not suit its kind. -/
inductive FootFault where
  | notExactlyOne
  | labelMismatch
  | inInitialTree
deriving DecidableEq, Repr

/-- The wording of a foot fault. -/
def FootFault.message : FootFault → String
  | .notExactlyOne => "auxiliary trees need exactly one foot"
  | .labelMismatch => "foot label must match the root"
  | .inInitialTree => "initial trees have no foot"

/-- Why a file is no grammar. -/
inductive Fault where
  | unreadable (cause : Unreadable)
  | duplicateSection (line : Nat) (name : Char)
  | unknownSection (line : Nat) (name : String)
  | missingQuotes (line : Nat)
  | malformedProduction (line : Nat) (entry : String)
  | malformedTree (line : Nat) (name : String) (cause : TreeFault)
  | badProbability (line : Nat) (entry : String)
  | badFoot (line : Nat) (name : String) (cause : FootFault)
  | missingSection (name : Char)
  | unknownExtension (extension : String)
deriving DecidableEq, Repr

/-- A complaint about a line. -/
def onLine (line : Nat) (complaint : String) : String := "line " ++ line.repr ++ ": " ++ complaint

/-- The wording of a fault. -/
def Fault.message : Fault → String
  | .unreadable cause => "could not read grammar file: " ++ cause.message
  | .duplicateSection line name =>
    onLine line ("declaring " ++ name.toString ++ " twice is not allowed")
  | .unknownSection line name => onLine line ("unknown section " ++ Text.quoted name)
  | .missingQuotes line => onLine line "expected quoted entries like \"S\""
  | .malformedProduction line entry => onLine line ("malformed rule " ++ Text.quoted entry)
  | .malformedTree line name cause =>
    onLine line ("malformed tree " ++ name ++ ": " ++ cause.message)
  | .badProbability line entry => onLine line (Text.quoted entry ++ " is not a probability")
  | .badFoot line name cause => onLine line (cause.message ++ " in tree " ++ name)
  | .missingSection name => "grammar has no " ++ name.toString ++ " section"
  | .unknownExtension extension =>
    "unknown grammar file extension " ++ Text.quoted extension ++ ", expected .cfg, .pcfg or .tag"

end DeductiveParsing.GrammarFile
