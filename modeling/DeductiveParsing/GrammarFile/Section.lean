/-
The sections of a grammar file. A line declares one section: its name, which is one character, an
equals sign and entries between double quotes. Blank lines and lines that begin with two slashes
say nothing, and the section `G` only restates the signature.

* `Section`: the entries of a section with the number of its line;
* `splitHeading?`: the name and the body of a line;
* `entries`: the texts between double quotes;
* `readSections`: all sections of a file, or the first fault.
-/
import DeductiveParsing.GrammarFile.Fault

namespace DeductiveParsing.GrammarFile

/-- The entries of a section, and the number of the line that declares it. -/
structure Section where
  line : Nat
  entries : List (List Char)
deriving DecidableEq, Repr, Inhabited

/-- The sections read so far, by name. -/
abbrev Sections := List (Char × Section)

/-- What stands behind the character `mark`, if it comes next after blanks. -/
def afterMark? (mark : Char) (cs : List Char) : Option (List Char) :=
  match Text.trimStart cs with
  | [] => none
  | c :: rest => if c = mark then some rest else none

/-- The name and the body of a line: the name is the shortest sequence of characters without
blanks that an equals sign follows. -/
def splitHeading? : List Char → Option (List Char × List Char)
  | [] => none
  | c :: cs =>
    if Text.isBlank c then none
    else
      match afterMark? '=' cs with
      | some body => some ([c], body)
      | none => (splitHeading? cs).map fun (name, body) => (c :: name, body)

/-- The first text between double quotes with what stands behind it. -/
def nextQuoted? (cs : List Char) : Option (List Char × List Char) :=
  match cs.dropWhile (· ≠ '"') with
  | [] => none
  | _ :: opened =>
    match opened.dropWhile (· ≠ '"') with
    | [] => none
    | _ :: rest => some (opened.takeWhile (· ≠ '"'), rest)

/-- Behind an entry there is less text. -/
theorem length_lt_of_nextQuoted? {cs entry rest : List Char}
    (h : nextQuoted? cs = some (entry, rest)) : rest.length < cs.length := by
  have hdrop : ∀ (p : Char → Bool) (xs : List Char), (xs.dropWhile p).length ≤ xs.length :=
    fun p xs => (List.dropWhile_sublist p).length_le
  rw [nextQuoted?] at h
  split at h
  · cases h
  next c opened hc =>
    split at h
    · cases h
    next d rest' hd =>
      cases h
      have h1 := hdrop (· ≠ '"') cs
      have h2 := hdrop (· ≠ '"') opened
      rw [hc] at h1
      rw [hd] at h2
      simp only [List.length_cons] at h1 h2
      omega

/-- The texts between double quotes. -/
def entries (cs : List Char) : List (List Char) :=
  match _h : nextQuoted? cs with
  | none => []
  | some (entry, rest) => entry :: entries rest
termination_by cs.length
decreasing_by exact length_lt_of_nextQuoted? _h

/-- Whether a line says nothing. -/
def isSilent (text : List Char) : Bool :=
  match text with
  | [] => true
  | '/' :: '/' :: _ => true
  | _ => false

/-- Reads one line, of which `text` is what it holds between blanks, behind the sections of the
lines before it. -/
def readLine (allowed : List Char) (line : Nat) (text : List Char) (known : Sections) :
    Except Fault Sections := do
  if isSilent text then return known
  match splitHeading? text with
  | none => throw (.unknownSection line (String.ofList text))
  | some ([name], body) =>
    if name = 'G' then return known
    if !allowed.contains name then throw (.unknownSection line name.toString)
    if (known.lookup name).isSome then throw (.duplicateSection line name)
    let quoted := entries text
    if quoted.isEmpty && Text.trim body != ['\x7b', '\x7d'] then throw (.missingQuotes line)
    return known ++ [(name, ⟨line, quoted⟩)]
  | some (name, _) => throw (.unknownSection line (String.ofList name))

/-- The sections of a file; only those in `allowed` may occur, and none twice. -/
def readSections (allowed : List Char) (file : String) : Except Fault Sections :=
  let lines := (Text.pieces '\n' file.toList).zipIdx
  lines.foldlM (fun known (text, i) => readLine allowed (i + 1) (Text.trim text) known) []

/-- The section of a name, which has to be there. -/
def Sections.need (sections : Sections) (name : Char) : Except Fault Section :=
  match sections.lookup name with
  | some s => .ok s
  | none => .error (.missingSection name)

/-- The entries of the section of a name as strings. -/
def Sections.names (sections : Sections) (name : Char) : Except Fault (List String) := do
  return (← sections.need name).entries.map String.ofList

/-- The start symbol, the only entry of its section. -/
def Sections.start (sections : Sections) : Except Fault String := do
  let s ← sections.need 'S'
  match s.entries with
  | [start] => return String.ofList start
  | _ => throw (.missingQuotes s.line)

end DeductiveParsing.GrammarFile
