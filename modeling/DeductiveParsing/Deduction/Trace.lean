/-
Charts as tables, with a row for each entry.

* `TraceRow`: the cells of an entry;
* `trace`, `usefulTrace`: the rows of all entries, and of those that contribute to a goal;
* `traceText`: rows as a table with aligned columns.
-/
import DeductiveParsing.Deduction.Outcome

namespace DeductiveParsing

/-- The cells of an entry. The position is counted from one. -/
structure TraceRow where
  position : Nat
  item : String
  rules : String
  antecedents : String
deriving DecidableEq, Repr, Inhabited

/-- The cells as texts. -/
def TraceRow.cells (r : TraceRow) : List String :=
  [r.position.repr, r.item, r.rules, r.antecedents]

namespace Deduction

variable {W : Type} [Weight W]

/-- The positions of antecedents, counted from one, in braces. -/
def antecedentsText (d : Derivation) : String :=
  "\x7b" ++ ", ".intercalate (d.antecedents.map fun i => (i + 1).repr) ++ "\x7d"

/-- The row of the entry at position `i`. -/
def rowOf (e : Entry W) (i : Nat) : TraceRow where
  position := i + 1
  item := e.item.text
  rules := ", ".intercalate (e.derivations.map Derivation.rule)
  antecedents := ", ".intercalate (e.derivations.map antecedentsText)

/-- The rows of all entries. -/
def trace (o : Outcome W) : List TraceRow :=
  o.chart.entries.toList.zipIdx.map fun (e, i) => rowOf e i

/-- The rows of the entries that contribute to a goal. -/
def usefulTrace (o : Outcome W) : List TraceRow :=
  (trace o).filter fun row => o.useful.contains (row.position - 1)

/-! ### Tables -/

/-- The titles of the columns. -/
def titles : List String := ["Id", "Item", "Rules", "Backpointers"]

/-- The number of blanks behind the widest cell of a column. -/
def padding : Nat := 3

/-- A text with blanks behind it that make it `width` characters long. -/
def padded (width : Nat) (cell : String) : String :=
  cell ++ String.ofList (List.replicate (width - cell.length) ' ')

/-- The widths that fit all rows of a table. -/
def columnWidths (table : List (List String)) : List Nat :=
  let widest (widths : List Nat) (cells : List String) : List Nat :=
    List.zipWith (fun w cell => max w cell.length) widths cells
  (table.foldl widest (titles.map fun _ => 0)).map (· + padding)

/-- A row with aligned columns, without blanks at the end. -/
def lineOf (widths : List Nat) (cells : List String) : String :=
  let line := String.join (List.zipWith padded widths cells)
  String.ofList (Text.trimEnd line.toList) ++ "\n"

/-- Rows as a table with titles. -/
def traceText (rows : List TraceRow) : String :=
  let table := titles :: rows.map TraceRow.cells
  String.join (table.map (lineOf (columnWidths table)))

end Deduction

end DeductiveParsing
