/-
Sessions of the command line: a grammar file is loaded, and inputs are decided one after the other.
Everything that a session writes is computed here.

* `Options`: what is asked for;
* `Options.load`: the algorithm and the grammar of a session, or why there are none;
* `Options.reply`: what is written for one input;
* `Options.transcript`: what a whole session writes, and how it ends.
-/
import DeductiveParsing.Algorithm
import DeductiveParsing.Deduction.Trace
import DeductiveParsing.Weight.Double

namespace DeductiveParsing.Session

/-- What a session is asked for. Without an input it reads inputs line by line. -/
structure Options where
  file : String
  algorithm : String
  input : Option String
  showTrace : Bool
  showUseful : Bool
  showTrees : Bool
  limit : Option Nat
deriving DecidableEq, Repr

/-- The algorithm of a session that names none. -/
def defaultAlgorithm : String := Algorithm.earley.id

/-- What a session has written to its two outputs, and its exit code. -/
structure Transcript where
  out : String
  err : String
  code : UInt8
deriving DecidableEq, Repr

/-- A complaint as it is written. -/
def complaint (message : String) : String := "error: " ++ message ++ "\n"

/-- A session that is ready for inputs. -/
structure Ready where
  algorithm : Algorithm
  grammar : FormalGrammar Float

/-- Loads the algorithm and the grammar of a session, or says with which exit code and complaint it
ends. Whether the grammar suits the algorithm does not depend on the input. -/
def Options.load (o : Options) (contents : Option ByteArray) : Except (UInt8 × String) Ready :=
  match Algorithm.read o.algorithm with
  | .error fault => .error (255, complaint fault.message)
  | .ok algorithm =>
    match FormalGrammar.ofFile o.file contents with
    | .error fault => .error (255, complaint (o.file ++ ": " ++ fault.message))
    | .ok grammar =>
      match algorithm.compile grammar "" with
      | .error fault => .error (1, complaint fault.message)
      | .ok _ => .ok ⟨algorithm, grammar⟩

/-- An outcome as it is written. -/
def Options.report (o : Options) (outcome : Outcome Float) : String :=
  let table (rows : List TraceRow) : String := "\n" ++ Deduction.traceText rows ++ "\n"
  let verdict := if outcome.isDerivable then "derivable\n" else "not derivable\n"
  let full := if o.showTrace then table (Deduction.trace outcome) else ""
  let useful := if o.showUseful then table (Deduction.usefulTrace outcome) else ""
  let trees := if o.showTrees then outcome.trees.map fun t => t.text ++ "\n" else []
  verdict ++ full ++ useful ++ String.join trees

/-- What is written for one input. -/
def Options.reply (o : Options) (ready : Ready) (input : String) : Except String String :=
  let settings : Settings := ⟨ready.algorithm.policy, o.limit⟩
  match ready.algorithm.parse ready.grammar settings input with
  | .error failure => .error (complaint failure.message)
  | .ok outcome => .ok (o.report outcome)

/-- What asks for the next input. -/
def prompt : String := "> "

/-- The lines of a text; a line feed at the end does not begin another one. -/
def linesOf (s : String) : List String :=
  let lines := (Text.pieces '\n' s.toList).map String.ofList
  if lines.getLast? = some "" then lines.dropLast else lines

/-- A transcript with what is written for one more input. -/
def Options.answer (o : Options) (ready : Ready) (t : Transcript) (line : String) : Transcript :=
  match o.reply ready line with
  | .ok text => { t with out := t.out ++ text ++ prompt }
  | .error text => { t with out := t.out ++ prompt, err := t.err ++ text }

/-- Everything that a session writes, for a grammar file with the given contents and the given
standard input. -/
def Options.transcript (o : Options) (contents : Option ByteArray) (stdin : String) : Transcript :=
  match o.load contents with
  | .error (code, message) => ⟨"", message, code⟩
  | .ok ready =>
    match o.input with
    | none => (linesOf stdin).foldl (o.answer ready) ⟨prompt, "", 0⟩
    | some input =>
      match o.reply ready input with
      | .ok text => ⟨text, "", 0⟩
      | .error message => ⟨"", message, 1⟩

end DeductiveParsing.Session
