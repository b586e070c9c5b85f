/-
The entries of a grammar file.

* `readProduction?`: a production, whose sides an arrow parts;
* `splitName?`: a name and a value, which a colon parts;
* `readWeighted`: a probability and a production;
* `readNamedTree`: a name and a tree.
-/
import DeductiveParsing.GrammarFile.Section
import DeductiveParsing.Weighted.Grammar

namespace DeductiveParsing.GrammarFile

/-! ### Productions -/

/-- What stands behind an arrow, if the text begins with one. -/
def afterArrow? : List Char → Option (List Char)
  | '-' :: '>' :: rest => some rest
  | _ => none

/-- The longest nonempty beginning that an arrow follows, with what stands behind that arrow. -/
def splitLastArrow? : List Char → Option (List Char × List Char)
  | [] => none
  | c :: cs =>
    match splitLastArrow? cs with
    | some (before, behind) => some (c :: before, behind)
    | none => (afterArrow? cs).map fun behind => ([c], behind)

/-- The two sides of a production. The left-hand side is the longest beginning without blanks that
an arrow follows, blanks before the arrow or not. -/
def splitArrow? (cs : List Char) : Option (List Char × List Char) :=
  let text := Text.trimStart cs
  let first := text.takeWhile fun c => !Text.isBlank c
  let rest := text.dropWhile fun c => !Text.isBlank c
  match afterArrow? (Text.trimStart rest) with
  | some body => some (first, body)
  | none => (splitLastArrow? first).map fun (lhs, body) => (lhs, body ++ rest)

/-- Reads a production. Declared names become nonterminals, all others terminals, and the letter
for the empty string counts for nothing. -/
def readProduction? (nonterminals : List String) (cs : List Char) : Option Production := do
  let (lhs, body) ← splitArrow? cs
  let names := (Text.words body).map String.ofList
  return ⟨String.ofList lhs, (names.filter (· ≠ epsilon)).map (Symbol.classify nonterminals)⟩

/-- Reads a production of the section at `line`. -/
def readProduction (line : Nat) (nonterminals : List String) (cs : List Char) :
    Except Fault Production :=
  match readProduction? nonterminals cs with
  | some p => .ok p
  | none => .error (.malformedProduction line (String.ofList cs))

/-! ### Names and values -/

/-- The shortest nonempty beginning that a colon follows, blanks before the colon or not, with what
stands behind the colon. That must not be empty. The colon is the first one behind the first
character, for a shorter beginning would end before that one. -/
def splitColon? : List Char → Option (List Char × List Char)
  | [] => none
  | c :: cs =>
    match cs.dropWhile (· ≠ ':') with
    | _ :: d :: rest => some (c :: Text.trimEnd (cs.takeWhile (· ≠ ':')), d :: rest)
    | _ => none

/-- The value of what stands behind a colon: the text without the blanks at its ends, or the last
blank if there is nothing else. -/
def valueOf (cs : List Char) : List Char :=
  match Text.trim cs with
  | [] => cs.getLast?.toList
  | value => value

/-- A name and a value. The name begins behind the leading blanks; only where that leaves no name
is it the last of them, in front of a colon. -/
def splitName? (cs : List Char) : Option (List Char × List Char) :=
  let text := Text.trimStart cs
  let blank := (cs.takeWhile Text.isBlank).getLast?
  let name := splitColon? text <|> blank.bind fun b => splitColon? (b :: text)
  name.map fun (name, rest) => (name, valueOf rest)

/-- Reads a weighted production of the section at `line`. -/
def readWeighted {W : Type} [Weight W] (line : Nat) (nonterminals : List String)
    (cs : List Char) : Except Fault (Weighted.Production W) :=
  match splitName? cs with
  | none => .error (.malformedProduction line (String.ofList cs))
  | some (name, value) =>
    match (Weight.read? name : Option W).filter Weight.isProbability with
    | none => .error (.badProbability line (String.ofList name))
    | some weight => (readProduction line nonterminals value).map fun p => ⟨p, weight⟩

/-- Reads a tree and its name from the section at `line`. -/
def readNamedTree (line : Nat) (cs : List Char) : Except Fault (String × Tree) :=
  match splitName? cs with
  | none => .error (.malformedTree line (String.ofList cs) .unnamed)
  | some (name, value) =>
    match Tree.read (String.ofList value) with
    | .ok tree => .ok (String.ofList name, tree)
    | .error fault => .error (.malformedTree line (String.ofList name) (.unreadable fault))

end DeductiveParsing.GrammarFile
