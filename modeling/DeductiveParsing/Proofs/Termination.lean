/-
Runs that come to an end, whatever the grammar and the input.

* `Deduction.Moment.Replaces`: a run exchanges the item at a position for a preferred one;
* `Schema.Terminates`: runs end, only finitely many forms come into their charts, and no item is
  exchanged more than a bounded number of times;
* `Schema.Bounds.terminates`, `Schema.Stock.terminates`: this follows from bounds for the forms if all
  derivations are kept, and from a stock of items if only the best ones are;
* `Algorithm.compileTokens_terminates`: so it holds for all algorithms that work on stacks, on a
  table, on splits or on spans.
-/
import DeductiveParsing.Algorithm
import DeductiveParsing.Proofs.Deduction.Moments
import DeductiveParsing.Proofs.LeftCorner.Recognition
import DeductiveParsing.Proofs.LeftCorner.Termination
import DeductiveParsing.Proofs.Lr.Recognition
import DeductiveParsing.Proofs.ShiftReduce.Recognition
import DeductiveParsing.Proofs.TreeAdjoining.Termination
import DeductiveParsing.Proofs.Unger.Termination
import DeductiveParsing.Proofs.Weighted.Costs
import DeductiveParsing.Proofs.Weighted.Viterbi

namespace DeductiveParsing

open Deduction (Moment bind_eq_ok)

variable {W : Type} [Weight W] {schema : Schema W} {policy : Policy}

/-! ### Replacements -/

namespace Deduction

variable {settings : Settings} {Holds : Item W → Prop} {m : Moment W} {ms : List (Moment W)}
  {x : Item W} {i : ℕ}

/-- What axioms have and rules preserve holds of the items of the chart at every moment of a run that
keeps only the best derivations. -/
lemma all_of_reaches_of_produces (hpolicy : settings.policy ≠ .accumulate)
    (h : schema.Produces Holds) (hm : Moment.Reaches settings schema (.start schema) m) :
    m.state.All Holds := by
  refine ((Invariant.of_merges h.of_axiom h.of_fire fun s t x d hs hx hstep => ?_).of_reaches hm).1
  refine ⟨hstep.consistent hs.consistent, fun y hy => ?_⟩
  rcases hstep.mem_items hs.consistent hy with hy | ⟨rfl, -⟩ | ⟨haccumulate, -⟩
  · exact hs.holds y hy
  · exact hx
  · exact absurd haccumulate hpolicy

/-- Whether the item at a position is exchanged for a preferred one between two moments of a run. -/
structure Moment.Replaces (settings : Settings) (schema : Schema W) (i : ℕ) (m m' : Moment W) :
    Prop where
  reaches : Moment.Reaches settings schema m m'
  prefers : ∃ x y, m.state.chart.item? i = some x ∧ m'.state.chart.item? i = some y ∧
    settings.policy.prefers y.weight x.weight = true

/-- With each exchange there are fewer items that are preferred. -/
lemma length_le_rank [OrderedWeight W] {stock : schema.Stock}
    (hms : ∀ m' ∈ m :: ms, ∀ y ∈ m'.state.chart.items, y ∈ stock.items)
    (hchain : (m :: ms).IsChain (Moment.Replaces settings schema i))
    (hx : m.state.chart.item? i = some x) : ms.length ≤ stock.rank settings.policy x := by
  induction ms generalizing m x with
  | nil => exact Nat.zero_le _
  | cons m' ms ih =>
      obtain ⟨⟨-, x', y, hx', hy, hprefers⟩, hchain⟩ := List.isChain_cons_cons.1 hchain
      obtain rfl := Option.some.inj (hx.symm.trans hx')
      obtain ⟨-, hms⟩ := List.forall_mem_cons.1 hms
      have hlt := stock.rank_lt (hms m' List.mem_cons_self y ⟨i, hy⟩) hprefers
      exact (ih hms hchain hy).trans_lt hlt

end Deduction

/-! ### Termination -/

/-- Whether runs of a schema come to an end: a run without a limit for its chart empties its agenda,
and all runs, with whatever limit, have only finitely many forms in their charts and exchange the
item at a position only a bounded number of times. -/
structure Schema.Terminates (schema : Schema W) (policy : Policy) : Prop where
  exists_run : ∃ fuel o, Deduction.run ⟨policy, none⟩ schema fuel = .ok o
  exists_forms : ∃ forms : Finset Form, ∀ (limit : Option ℕ) (m : Moment W),
    Moment.Reaches ⟨policy, limit⟩ schema (.start schema) m →
      ∀ x ∈ m.state.chart.items, x.form ∈ forms
  exists_bound : ∃ n, ∀ (limit : Option ℕ) (i : ℕ) (ms : List (Moment W)),
    (∀ m ∈ ms, Moment.Reaches ⟨policy, limit⟩ schema (.start schema) m) →
      ms.IsChain (Moment.Replaces ⟨policy, limit⟩ schema i) → ms.length ≤ n

/-- Runs that keep all derivations end if there are bounds. They exchange nothing. -/
theorem Schema.Bounds.terminates (bounds : schema.Bounds) : schema.Terminates .accumulate where
  exists_run := Deduction.exists_run rfl rfl bounds
  exists_forms := by
    refine ⟨bounds.forms, fun limit m hm x hx => bounds.form_mem x ?_⟩
    have hpreserves : schema.Preserves bounds.Holds :=
      ⟨bounds.holds_axiom, bounds.holds_fire, bounds.holds_merge⟩
    exact (Deduction.all_of_reaches hpreserves hm).holds x hx
  exists_bound := by
    refine ⟨1, fun limit i ms _ hchain => ?_⟩
    match ms, hchain with
    | [], _ => exact Nat.zero_le _
    | [_], _ => exact le_rfl
    | m :: m' :: ms, hchain =>
        obtain ⟨⟨-, x, y, -, -, hprefers⟩, -⟩ := List.isChain_cons_cons.1 hchain
        cases hprefers

/-- Runs that keep only the best derivations end if there is a stock. -/
theorem Schema.Stock.terminates [OrderedWeight W] (stock : schema.Stock)
    (hpolicy : policy ≠ .accumulate) : schema.Terminates policy := by
  have hmem : ∀ (limit : Option ℕ) (m : Moment W),
      Moment.Reaches ⟨policy, limit⟩ schema (.start schema) m →
        ∀ x ∈ m.state.chart.items, x ∈ stock.items := fun limit m hm =>
    (Deduction.all_of_reaches_of_produces hpolicy stock.produces hm).holds
  refine ⟨Deduction.exists_run_of_stock hpolicy rfl stock,
    ⟨stock.forms, fun limit m hm x hx => stock.form_mem (hmem limit m hm x hx)⟩,
    stock.items.ncard + 1, fun limit i ms hms hchain => ?_⟩
  match ms, hms, hchain with
  | [], _, _ => exact Nat.zero_le _
  | [_], _, _ => exact Nat.le_add_left _ _
  | m :: m' :: ms, hms, hchain =>
      obtain ⟨⟨-, x, -, hx, -, -⟩, -⟩ := List.isChain_cons_cons.1 hchain
      have hrank := Deduction.length_le_rank (fun m hm => hmem limit m (hms m hm)) hchain hx
      exact Nat.succ_le_succ (hrank.trans (stock.rank_le policy x))

/-- A requirement that does not fail is met. -/
lemma Schema.eq_true_of_require {condition : Bool} {fault : Fault} {u : Unit}
    (h : Schema.require condition fault = .ok u) : condition = true := by
  simpa [Schema.require] using h

namespace Algorithm

/-- Runs of all algorithms that work on stacks, with a table, with splits or with spans come to an end
for every grammar that they accept and every input, if the mark of left-corner parsing is on no
right-hand side and weights are compared by a strict order where only the best derivations are
kept. -/
theorem compileTokens_terminates {a : Algorithm} {fg : FormalGrammar W} {tokens : List String}
    (ha : a ∈ [shiftReduce, leftCorner, unger, lr, treeCyk, weightedCyk, weightedAStar])
    (hmark : a = leftCorner → ∀ g, a.asContextFree fg = .ok g →
      ∀ p ∈ g.productions, LeftCornerRule.mark ∉ p.rhsNames)
    (horder : a.policy ≠ .accumulate → OrderedWeight W)
    (hschema : a.compileTokens fg tokens = .ok schema) : schema.Terminates a.policy := by
  simp only [List.mem_cons, List.not_mem_nil, or_false] at ha
  rcases ha with rfl | rfl | rfl | rfl | rfl | rfl | rfl
  · obtain ⟨g, -, hschema⟩ := bind_eq_ok.1 hschema
    exact (ShiftReduce.bounds hschema).terminates
  · obtain ⟨g, hg, hschema⟩ := bind_eq_ok.1 hschema
    exact (LeftCorner.bounds (hmark rfl g hg) hschema).terminates
  · obtain ⟨g, -, hschema⟩ := bind_eq_ok.1 hschema
    exact (Unger.bounds hschema).terminates
  · obtain ⟨g, -, hschema⟩ := bind_eq_ok.1 hschema
    exact (Lr.bounds hschema).terminates
  · exact (TreeCyk.boundsOfAny hschema).terminates
  · obtain ⟨g, -, hschema⟩ := bind_eq_ok.1 hschema
    obtain ⟨_, hnormal, -⟩ := bind_eq_ok.1 hschema
    have hjoins := Weighted.joinsSpans_weightedCyk (Schema.eq_true_of_require hnormal) hschema
    have := horder (by decide)
    exact (Schema.Stock.ofYields hjoins.finite_yields).terminates (by decide)
  · obtain ⟨g, -, hschema⟩ := bind_eq_ok.1 hschema
    obtain ⟨_, hnormal, -⟩ := bind_eq_ok.1 hschema
    have hjoins := Weighted.joinsSpans_weightedAStar (Schema.eq_true_of_require hnormal) hschema
    have := horder (by decide)
    exact (Schema.Stock.ofYields hjoins.finite_yields).terminates (by decide)

/-- Runs on letters that are nested end, and so do runs that look for a likely parse. -/
theorem exists_compileTokens_terminates_nested :
    (∀ p ∈ LeftCorner.nestedGrammar.productions, LeftCornerRule.mark ∉ p.rhsNames) ∧
      ∃ plain guided : Schema (Exact ℚ),
        leftCorner.compileTokens (.contextFree LeftCorner.nestedGrammar) ["a", "a", "b", "b"] =
          .ok plain ∧ plain.Terminates .accumulate ∧
        weightedAStar.compileTokens (.weighted GrammarFile.doubtfulGrammar) ["a", "a"] =
          .ok guided ∧ guided.Terminates .lowerWins := by
  have hmark : ∀ p ∈ LeftCorner.nestedGrammar.productions, LeftCornerRule.mark ∉ p.rhsNames := by
    decide
  have hplain : (leftCorner.compileTokens (W := Exact ℚ) (.contextFree LeftCorner.nestedGrammar)
      ["a", "a", "b", "b"]).isOk = true := by cbv
  obtain ⟨plain, hplain⟩ := Deduction.exists_of_isOk hplain
  obtain ⟨guided, hguided⟩ : ∃ schema : Schema (Exact ℚ), weightedAStar.compileTokens
      (.weighted GrammarFile.doubtfulGrammar) ["a", "a"] = .ok schema := ⟨_, rfl⟩
  refine ⟨hmark, plain, guided, hplain, ?_, hguided, ?_⟩
  · refine compileTokens_terminates (a := leftCorner) (by simp) (fun _ g hg => ?_)
      (fun hne => absurd rfl hne) hplain
    obtain rfl := Except.ok.inj hg
    exact hmark
  · exact compileTokens_terminates (a := weightedAStar) (by simp)
      (fun h => absurd h (by decide)) (fun _ => inferInstance) hguided

end Algorithm

end DeductiveParsing
