/-
The command line: decides whether inputs are derivable from the grammar in a file.

* `Options.ofArguments`: what the arguments ask for;
* `main`: the program.
-/
import DeductiveParsing.Session

namespace DeductiveParsing.Session

/-- How the program is called. -/
def usage : String :=
  "usage: FILE [INPUT] [--algorithm A] [--trace] [--success] [--trees] [--max-chart N]"

/-- A positional argument: the file first, then the input. -/
def Options.addPositional (o : Options) (hasFile : Bool) (argument : String) :
    Except String Options :=
  if !hasFile then .ok { o with file := argument }
  else if o.input.isNone then .ok { o with input := some argument }
  else .error ("unexpected argument " ++ argument)

/-- What positional arguments ask for, in addition to `o`. -/
def Options.addPositionals (o : Options) (hasFile : Bool) : List String → Except String Options
  | [] => if hasFile then .ok o else .error "the grammar file is missing"
  | argument :: rest => do (← o.addPositional hasFile argument).addPositionals true rest

/-- What arguments ask for, in addition to `o`. Behind two hyphens no argument is an option. -/
def Options.addArguments (o : Options) (hasFile : Bool) : List String → Except String Options
  | [] => o.addPositionals hasFile []
  | "--" :: rest => o.addPositionals hasFile rest
  | "--trace" :: rest => { o with showTrace := true }.addArguments hasFile rest
  | "--success" :: rest => { o with showUseful := true }.addArguments hasFile rest
  | "--trees" :: rest => { o with showTrees := true }.addArguments hasFile rest
  | "-a" :: value :: rest => { o with algorithm := value }.addArguments hasFile rest
  | "--algorithm" :: value :: rest => { o with algorithm := value }.addArguments hasFile rest
  | "--max-chart" :: value :: rest =>
    match Text.readIndex? value.toList with
    | some n => { o with limit := some n }.addArguments hasFile rest
    | none => .error ("not a number: " ++ value)
  | argument :: rest =>
    if argument.startsWith "-" && argument != "-" then .error ("unexpected argument " ++ argument)
    else do (← o.addPositional hasFile argument).addArguments true rest

/-- What the arguments of the program ask for. -/
def Options.ofArguments (arguments : List String) : Except String Options :=
  Options.addArguments
    { file := "", algorithm := defaultAlgorithm, input := none, showTrace := false,
      showUseful := false, showTrees := false, limit := none }
    false arguments

/-- Writes what a session has written. -/
def Transcript.write (t : Transcript) : IO Unit := do
  IO.print t.out
  IO.eprint t.err

/-- Reads inputs line by line and replies to each. -/
partial def converse (o : Options) (ready : Ready) : IO Unit := do
  IO.print prompt
  (← IO.getStdout).flush
  let line ← (← IO.getStdin).getLine
  if line.isEmpty then return
  match o.reply ready line with
  | .ok text => IO.print text
  | .error message => IO.eprint message
  converse o ready

/-- The contents of a file, if they can be had. -/
def contentsOf (path : String) : IO (Option ByteArray) := do
  try return some (← IO.FS.readBinFile path) catch _ => return none

/-- Runs a session. -/
def runSession (o : Options) : IO UInt8 := do
  let contents ← contentsOf o.file
  match o.load contents, o.input with
  | .ok ready, none => converse o ready; return 0
  | _, _ =>
    let t := o.transcript contents ""
    t.write
    return t.code

end DeductiveParsing.Session

open DeductiveParsing.Session in
/-- The program. -/
def main (arguments : List String) : IO UInt32 := do
  match Options.ofArguments arguments with
  | .ok o => return (← runSession o).toUInt32
  | .error message =>
    IO.eprintln ("error: " ++ message)
    IO.eprintln usage
    return 2
