/-
Parsing with costs and estimates finds cheapest parses.

* `Weighted.totalCost`: the cost of a parse, if the productions have finite costs;
* `Weighted.weightedAStar_exact`: at the end of a run, every entry has the least cost of a parse of
  its span together with the estimate around it, and the goal has that of a cheapest parse.
-/
import DeductiveParsing.Algorithm
import DeductiveParsing.Proofs.GrammarFile.Weighted
import DeductiveParsing.Proofs.Weighted.Costs

namespace DeductiveParsing.Weighted

open ContextFree (word)
open GrammarFile (doubtfulGrammar)

variable {K : Type} [Numbers K] {g : Grammar (Exact K)} {tokens : List String}
  {ps : List (Production (Exact K))}

/-- The cost of a parse, where those of its productions are numbers. -/
def totalCost (ps : List (Production (Exact K))) : K :=
  (ps.map fun p => (Weight.cost p.weight).value).sum

/-- Whether the productions of a grammar have finite costs. -/
def HasFiniteCosts (g : Grammar (Exact K)) : Prop :=
  ∀ p ∈ g.productions, ∃ c, Weight.cost p.weight = .number c

lemma HasFiniteCosts.hasCosts (h : HasFiniteCosts g) : HasCosts g := by
  intro p hp
  obtain ⟨c, hc⟩ := h p hp
  rw [costOf, hc]
  rfl

lemma HasFiniteCosts.hasFiniteEstimates (h : HasFiniteCosts g) (n : ℕ) : HasFiniteEstimates g n :=
  fun _ _ _ _ hw => Estimates.exists_number_of_outside? h hw

/-- Finite costs add up to a finite cost. -/
lemma HasFiniteCosts.costsOf_eq (h : HasFiniteCosts g) (hps : ps ⊆ g.productions) :
    costsOf ps = totalCost ps := by
  induction ps with
  | nil => rfl
  | cons p ps ih =>
      obtain ⟨hp, hps⟩ := List.cons_subset.1 hps
      obtain ⟨c, hc⟩ := h p hp
      have hcons : costsOf (p :: ps) = (c : WithTop K) + costsOf ps := by
        rw [costsOf, List.map_cons, List.sum_cons, costOf, hc]
        rfl
      have htotal : totalCost (p :: ps) = c + totalCost ps := by
        rw [totalCost, List.map_cons, List.sum_cons, hc]
        rfl
      rw [hcons, ih hps, htotal, WithTop.coe_add]

/-- Parses of which none has less cost are cheapest. -/
lemma HasFiniteCosts.isLeast (h : HasFiniteCosts g) {name : String} {w : List String} {t : Tree}
    (hparses : g.Parses [.nonterminal name] [t] w ps)
    (hgreatest : IsGreatest (g.valuesOf (fun ps => OrderDual.toDual (costsOf ps)) name w)
      (.toDual (costsOf ps))) : IsLeast (g.valuesOf totalCost name w) (totalCost ps) := by
  refine ⟨⟨t, ps, hparses, rfl⟩, ?_⟩
  rintro _ ⟨u, qs, hother, rfl⟩
  have hle : costsOf ps ≤ costsOf qs := hgreatest.2 ⟨u, qs, hother, rfl⟩
  rwa [h.costsOf_eq fun p hp => hparses.mem_productions p hp,
    h.costsOf_eq fun p hp => hother.mem_productions p hp, WithTop.coe_le_coe] at hle

/-! ### Empty inputs -/

/-- With no tokens there is a span for the start symbol alone. -/
lemma eq_start_of_outside? {name : String} {i l : ℕ} (hle : i + l ≤ 0)
    (h : ((Estimates.ofGrammar g 0).outside? name i l).isSome) :
    name = g.start ∧ i = 0 ∧ l = 0 := by
  rcases Estimates.eq_or_pos_of_outside? h with hstart | hpos
  · exact hstart
  · omega

/-! ### Runs -/

section Run

variable (hg : g.unweighted.IsWellFormed) (hnormal : g.unweighted.isChomskyNormal = true)
  (hnodup : g.unweighted.productions.Nodup) (hcosts : HasFiniteCosts g)
  {schema : Schema (Exact K)} (hschema : Schema.weightedAStar g tokens = .ok schema)
  {limit : Option ℕ} {fuel : ℕ} {s : Deduction.State (Exact K)}
  (hrun : Deduction.finalState ⟨.lowerWins, limit⟩ schema fuel = .ok s)

include hg hnormal hnodup hcosts hschema hrun

/-- At the end of a run, the chart has the spans that a name derives and that have an estimate. -/
lemma form_mem_forms_iff {name : String} {i k : ℕ} : Cyk.form name i k ∈ s.chart.forms ↔
    i ≤ k ∧ k ≤ tokens.length ∧ g.unweighted.Derives [.nonterminal name] (word (span tokens i k)) ∧
      ((Estimates.ofGrammar g tokens.length).outside? name i (k - i)).isSome := by
  rw [Weighing.form_mem_iff hg hnormal (suits_costs hnormal hcosts.hasCosts
    (hcosts.hasFiniteEstimates tokens.length) hschema) nofun hnodup hrun]
  constructor
  · rintro ⟨l, rfl, hle, hcovers, hparses⟩
    refine ⟨Nat.le_add_right i l, hle, (Grammar.nonempty_valuesOf_iff _).1 hparses, ?_⟩
    have hsub : i + l - i = l := Nat.add_sub_cancel_left i l
    exact hsub.symm ▸ hcovers
  · rintro ⟨hik, hle, hderives, hcovers⟩
    obtain ⟨l, rfl⟩ := Nat.exists_eq_add_of_le hik
    rw [Nat.add_sub_cancel_left] at hcovers
    exact ⟨l, rfl, hle, hcovers, (Grammar.nonempty_valuesOf_iff _).2 hderives⟩

/-- At the end of a run, every entry has the least cost of a parse of its span together with the
estimate around it. -/
lemma entry_cheapest {position : ℕ} {e : Entry (Exact K)}
    (he : s.chart.entries[position]? = some e) :
    ∃ name i l c u t ps d, e = ⟨WeightedRule.item name i (i + l) (.number (c + u)) [t], [d]⟩ ∧
      i + l ≤ tokens.length ∧
        (Estimates.ofGrammar g tokens.length).outside? name i l = some (.number u) ∧
          (tokens = [] → u = 0) ∧
            g.Parses [.nonterminal name] [t] (span tokens i (i + l)) ps ∧ totalCost ps = c ∧
              IsLeast (g.valuesOf totalCost name (span tokens i (i + l))) c := by
  have hestimates := hcosts.hasFiniteEstimates tokens.length
  obtain ⟨name, i, l, ps, t, d, rfl, hparse, hgreatest, -⟩ := Weighing.entry_exact hg hnormal
    (suits_costs hnormal hcosts.hasCosts hestimates hschema) nofun hnodup hrun he
  refine ⟨name, i, l, totalCost ps, around g tokens.length name i l, t, ps, d, ?_,
    hparse.le_length, hestimates.outside?_eq hparse.covers, ?_, hparse.parses, rfl,
    hcosts.isLeast hparse.parses hgreatest⟩
  · rw [item_of_costsOf_eq _ _ _ (hcosts.costsOf_eq hparse.subset)]
  · rintro rfl
    obtain ⟨rfl, rfl, rfl⟩ := eq_start_of_outside? hparse.le_length hparse.covers
    exact around_start g 0

/-- At the end of a run, the goal has the cost of a cheapest parse of the input. -/
lemma goal_cheapest {position : ℕ}
    (hgoal : position ∈ (Outcome.ofChart schema.goals s.chart).goals) :
    ∃ c t ps, s.chart.item? position =
        some (WeightedRule.item g.start 0 tokens.length (.number c) [t]) ∧
      g.unweighted.IsParseTree tokens t ∧ g.Parses [.nonterminal g.start] [t] tokens ps ∧
        totalCost ps = c ∧ IsLeast (g.valuesOf totalCost g.start tokens) c := by
  obtain ⟨ps, t, hitem, hparses, hgreatest⟩ := Weighing.goal_exact hg hnormal (suits_costs hnormal
    hcosts.hasCosts (hcosts.hasFiniteEstimates tokens.length) hschema) nofun hnodup hrun hgoal
  refine ⟨totalCost ps, t, ps, hitem.trans ?_,
    (ContextFree.Grammar.isParseTree_iff hg).2 hparses.spells, hparses, rfl,
    hcosts.isLeast hparses hgreatest⟩
  rw [item_of_costsOf_eq _ _ _ (hcosts.costsOf_eq fun p hp => hparses.mem_productions p hp),
    around_start, add_zero, Nat.zero_add]

end Run

/-- Parsing with costs and estimates finds cheapest parses: the grammar has the productions of one
that is read, in Chomsky normal form and without repetitions, and instead of the weights there it
may have any with finite costs. When the run for an input has ended, the chart has the spans that a
name derives and that have an estimate, which without tokens is the one of an empty production of
the start symbol. Each has the least cost of a parse together with its estimate, and the tree of a
parse with that cost; and the goal has the cost of a cheapest parse of the whole input. -/
theorem weightedAStar_exact {U : Type} [Weight U] {file : String} {g₀ : Grammar U}
    (hread : GrammarFile.readWeightedGrammar file = .ok g₀) (hsame : g.unweighted = g₀.unweighted)
    (hnormal : g.unweighted.isChomskyNormal = true)
    (hnodup : g.unweighted.productions.Nodup) (hcosts : HasFiniteCosts g) (tokens : List String) :
    ∃ schema, Algorithm.weightedAStar.compileTokens (.weighted g) tokens = .ok schema ∧
      ∀ (limit : Option ℕ) (fuel : ℕ) (o : Outcome (Exact K)),
        Deduction.run ⟨.lowerWins, limit⟩ schema fuel = .ok o →
        (∀ name i k, Cyk.form name i k ∈ o.chart.forms ↔ i ≤ k ∧ k ≤ tokens.length ∧
          g.unweighted.Derives [.nonterminal name] (word (span tokens i k)) ∧
            ((Estimates.ofGrammar g tokens.length).outside? name i (k - i)).isSome) ∧
        (tokens = [] → ∀ name i k, Cyk.form name i k ∈ o.chart.forms ↔
          name = g.start ∧ i = 0 ∧ k = 0 ∧ ⟨g.start, []⟩ ∈ g.unweighted.productions) ∧
        (∀ (position : ℕ) (e : Entry (Exact K)), o.chart.entries[position]? = some e →
          ∃ name i l c u t ps d,
            e = ⟨WeightedRule.item name i (i + l) (.number (c + u)) [t], [d]⟩ ∧
              i + l ≤ tokens.length ∧
                (Estimates.ofGrammar g tokens.length).outside? name i l = some (.number u) ∧
                  (tokens = [] → u = 0) ∧
                    g.Parses [.nonterminal name] [t] (span tokens i (i + l)) ps ∧
                      totalCost ps = c ∧
                        IsLeast (g.valuesOf totalCost name (span tokens i (i + l))) c) ∧
        ∀ position ∈ o.goals, ∃ c t ps,
          o.chart.item? position =
            some (WeightedRule.item g.start 0 tokens.length (.number c) [t]) ∧
          g.unweighted.IsParseTree tokens t ∧ g.Parses [.nonterminal g.start] [t] tokens ps ∧
            totalCost ps = c ∧ IsLeast (g.valuesOf totalCost g.start tokens) c := by
  have hg : g.unweighted.IsWellFormed :=
    hsame ▸ GrammarFile.isWellFormed_of_readWeightedGrammar hread
  obtain ⟨schema, hschema⟩ : ∃ schema, Schema.weightedAStar g tokens = .ok schema :=
    ⟨_, by rw [Schema.weightedAStar, hnormal]; rfl⟩
  refine ⟨schema, hschema, fun limit fuel o hrun => ?_⟩
  obtain ⟨s, hs, rfl⟩ := Deduction.run_eq_ok hrun
  have hforms : ∀ name i k, Cyk.form name i k ∈ s.chart.forms ↔ _ := fun name i k =>
    form_mem_forms_iff hg hnormal hnodup hcosts hschema hs
  refine ⟨hforms, ?_, fun position e he => entry_cheapest hg hnormal hnodup hcosts hschema hs he,
    fun position hgoal => goal_cheapest hg hnormal hnodup hcosts hschema hs hgoal⟩
  rintro rfl name i k
  refine (hforms name i k).trans ⟨?_, ?_⟩
  · rintro ⟨hik, hk, hderives, hcovers⟩
    obtain ⟨rfl, rfl, -⟩ := eq_start_of_outside? (by simpa [hik] using hk) hcovers
    obtain rfl : k = 0 := Nat.le_zero.1 hk
    exact ⟨rfl, rfl, rfl, (Grammar.derives_nil_iff hnormal).1 hderives⟩
  · rintro ⟨rfl, rfl, rfl, hmem⟩
    exact ⟨le_rfl, le_rfl, (Grammar.derives_nil_iff hnormal).2 hmem,
      Option.isSome_of_eq_some (Estimates.outside?_start g 0)⟩

/-- Of two letters, the first is read as the likely one: the whole input costs five at most, instead
of nine. -/
theorem exists_weightedAStar_exact_doubtful :
    GrammarFile.readWeightedGrammar GrammarFile.doubtfulFile = .ok doubtfulGrammar ∧
      ∃ schema fuel o, Algorithm.weightedAStar.compileTokens (.weighted doubtfulGrammar) ["a", "a"] =
          .ok schema ∧ Deduction.run ⟨.lowerWins, none⟩ schema fuel = .ok o ∧
        ∃ position ∈ o.goals, ∃ (c : ℚ) (t : Tree), o.chart.item? position =
          some (WeightedRule.item "S" 0 2 (.number c) [t]) ∧ c ≤ 5 ∧
            doubtfulGrammar.unweighted.IsParseTree ["a", "a"] t := by
  have hnormal : doubtfulGrammar.unweighted.isChomskyNormal = true := by decide
  have hcosts : HasFiniteCosts doubtfulGrammar := by
    have hpositive : ∀ p ∈ doubtfulGrammar.productions, ∃ x, 0 < x ∧ p.weight = .number x := by
      simp [doubtfulGrammar]
    intro p hp
    obtain ⟨x, hx, hweight⟩ := hpositive p hp
    exact ⟨_, hweight ▸ Exact.cost_of_pos hx⟩
  obtain ⟨schema, hschema, hall⟩ := weightedAStar_exact GrammarFile.read_doubtfulFile rfl hnormal
    (by decide) hcosts ["a", "a"]
  obtain ⟨fuel, o, hrun⟩ : ∃ fuel o, Deduction.run ⟨.lowerWins, none⟩ schema fuel = .ok o :=
    (joinsSpans_weightedAStar hnormal hschema).exists_run nofun
  obtain ⟨hforms, -, -, hgoals⟩ := hall none fuel o hrun
  -- the parse with the likely letter first
  have hB := Grammar.Parses.of_lexical (g := doubtfulGrammar)
    (p := ⟨⟨"B", [.terminal "a"]⟩, .number 1⟩) (by simp [doubtfulGrammar]) rfl
  have hA := Grammar.Parses.of_lexical (g := doubtfulGrammar)
    (p := ⟨⟨"A", [.terminal "a"]⟩, .number (1 / 5)⟩) (by simp [doubtfulGrammar]) rfl
  have hS := Grammar.Parses.of_binary
    (p := ⟨⟨"S", [.nonterminal "B", .nonterminal "A"]⟩, .number (1 / 2)⟩)
    (by simp [doubtfulGrammar]) rfl hB hA
  have hvalue : (5 : ℚ) ∈ doubtfulGrammar.valuesOf totalCost "S" ["a", "a"] :=
    ⟨_, _, hS, by norm_num [totalCost, Exact.cost_of_pos, Exact.value, Numbers.cost]⟩
  have hform : Cyk.form "S" 0 2 ∈ o.chart.forms := (hforms "S" 0 2).2
    ⟨Nat.zero_le 2, le_rfl, hS.spells.derives,
      Option.isSome_of_eq_some (Estimates.outside?_start doubtfulGrammar 2)⟩
  obtain ⟨x, ⟨position, hx⟩, hxform⟩ := Chart.mem_forms_iff.1 hform
  obtain ⟨s, hs, rfl⟩ := Deduction.run_eq_ok hrun
  have hsuits := suits_costs hnormal hcosts.hasCosts (hcosts.hasFiniteEstimates _) hschema
  have hgoal := (Deduction.mem_goals_ofChart (Deduction.consistent_of_finalState hs).1.indexed).2
    ⟨x, hx, (hsuits.goals_iff _).2 hxform⟩
  obtain ⟨c, t, -, hitem, htree, -, -, hleast⟩ := hgoals position hgoal
  exact ⟨GrammarFile.read_doubtfulFile, schema, fuel, _, hschema, hrun, position, hgoal, c, t, hitem,
    hleast.2 hvalue, htree⟩

end DeductiveParsing.Weighted
