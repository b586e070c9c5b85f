/-
Productions with the probability zero in parsing with costs and estimates.

* `weightedAStar_positive`: if all estimates are finite, such productions do not hide the others;
* `exists_undefined_goal`: if an estimate is infinite, they may.
-/
import DeductiveParsing.Proofs.Deduction.Beginning
import DeductiveParsing.Proofs.Weighted.AStar

namespace DeductiveParsing.Weighted

variable {K : Type} [Numbers K] {g : Grammar (Exact K)} {p : Production (Exact K)}
  {ps : List (Production (Exact K))}

/-- Whether the probability of a production is positive. -/
def Production.IsPositive (p : Production (Exact K)) : Prop := ∃ x, 0 < x ∧ p.weight = .number x

/-- The productions with finite costs are those with positive probabilities. -/
lemma costOf_ne_top_iff (hp : Weight.isProbability p.weight = true) :
    costOf p ≠ ⊤ ↔ p.IsPositive := by
  obtain ⟨q, w⟩ := p
  cases w with
  | number x =>
      obtain ⟨h0, -⟩ : 0 ≤ x ∧ x ≤ 1 := by simpa [Weight.isProbability] using hp
      rcases h0.eq_or_lt with rfl | hpos
      · have htop : costOf (⟨q, .number 0⟩ : Production (Exact K)) = ⊤ := by
          rw [costOf, Exact.cost_zero]
          rfl
        refine ⟨fun hne => absurd htop hne, ?_⟩
        rintro ⟨y, hy, hweight⟩
        cases hweight
        exact absurd hy (lt_irrefl _)
      · refine ⟨fun _ => ⟨x, hpos, rfl⟩, fun _ => ?_⟩
        rw [costOf, Exact.cost_of_pos hpos]
        exact WithTop.coe_ne_top
  | infinite => cases hp
  | undefined => cases hp

lemma costsOf_ne_top_iff : costsOf ps ≠ ⊤ ↔ ∀ p ∈ ps, costOf p ≠ ⊤ := by
  induction ps with
  | nil => simp [costsOf]
  | cons p ps ih =>
      have hcons : costsOf (p :: ps) = costOf p + costsOf ps := by
        rw [costsOf, List.map_cons, List.sum_cons]
        rfl
      rw [hcons, WithTop.add_ne_top, ih, List.forall_mem_cons]

/-- If all estimates are finite, productions with the probability zero do not hide the others: the
grammar is one that is read, in Chomsky normal form and without repetitions. If an input has a parse
with positive probabilities, the goal of a run that has ended has a finite weight, and the tree of
such a parse. -/
theorem weightedAStar_positive {file : String}
    (hread : GrammarFile.readWeightedGrammar file = .ok g)
    (hnormal : g.unweighted.isChomskyNormal = true)
    (hnodup : g.unweighted.productions.Nodup) {tokens : List String}
    (hestimates : HasFiniteEstimates g tokens.length) {t : Tree}
    (hparses : g.Parses [.nonterminal g.start] [t] tokens ps)
    (hpositive : ∀ p ∈ ps, p.IsPositive) :
    ∃ schema, Algorithm.weightedAStar.compileTokens (.weighted g) tokens = .ok schema ∧
      ∀ (limit : Option ℕ) (fuel : ℕ) (o : Outcome (Exact K)),
        Deduction.run ⟨.lowerWins, limit⟩ schema fuel = .ok o →
        o.isDerivable = true ∧ ∀ position ∈ o.goals, ∃ x u qs, o.chart.item? position =
          some (WeightedRule.item g.start 0 tokens.length (.number x) [u]) ∧
            g.Parses [.nonterminal g.start] [u] tokens qs ∧ ∀ p ∈ qs, p.IsPositive := by
  have hg := GrammarFile.isWellFormed_of_readWeightedGrammar hread
  have hprobability : ∀ p ∈ g.productions, Weight.isProbability p.weight = true := fun p hp =>
    (GrammarFile.exists_of_readWeightedGrammar hread p hp).1
  have hcosts : HasCosts g := fun p hp => Exact.cost_eq_ofTop (hprobability p hp)
  obtain ⟨schema, hschema⟩ : ∃ schema, Schema.weightedAStar g tokens = .ok schema :=
    ⟨_, by rw [Schema.weightedAStar, hnormal]; rfl⟩
  have hsuits := suits_costs hnormal hcosts hestimates hschema
  refine ⟨schema, hschema, fun limit fuel o hrun => ?_⟩
  obtain ⟨s, hs, rfl⟩ := Deduction.run_eq_ok hrun
  have hcovers := Option.isSome_of_eq_some (Estimates.outside?_start g tokens.length)
  refine ⟨(Weighing.isDerivable_iff hg hnormal hsuits (by decide) hnodup hs).2
    ⟨hcovers, _, t, ps, hparses, rfl⟩, fun position hgoal => ?_⟩
  obtain ⟨qs, u, hitem, hbest, hgreatest⟩ :=
    Weighing.goal_exact hg hnormal hsuits (by decide) hnodup hs hgoal
  -- the best parse costs no more than that with positive probabilities, so its cost is finite
  have hle : costsOf qs ≤ costsOf ps := hgreatest.2 ⟨t, ps, hparses, rfl⟩
  have hfinite : costsOf ps ≠ ⊤ := costsOf_ne_top_iff.2 fun p hp =>
    (costOf_ne_top_iff (hprobability p (hparses.mem_productions p hp))).2 (hpositive p hp)
  have hfinite' : costsOf qs ≠ ⊤ := ne_top_of_le_ne_top hfinite hle
  obtain ⟨c, hc⟩ := WithTop.ne_top_iff_exists.1 hfinite'
  refine ⟨c, u, qs, hitem.trans ?_, hbest, fun p hp =>
    (costOf_ne_top_iff (hprobability p (hbest.mem_productions p hp))).1
      (costsOf_ne_top_iff.1 hfinite' p hp)⟩
  rw [item_of_costsOf_eq _ _ _ hc.symm, around_start, add_zero, Nat.zero_add]

/-! ### Two readings of a letter -/

section Readings

open GrammarFile (readWeightedGrammar readWeighted readSections readWeighted_zero readWeighted_one)
open Deduction (bind_eq_ok)

/-- A grammar for two letters. The first letter can be read in two ways, one of which the whole uses
with the probability `x`, and is read so with the probability `y`. -/
def readingsGrammar (x y : ℝ) : Grammar (Exact ℝ) :=
  ⟨["S", "B", "C", "D"], ["a", "b"], "S",
    [⟨⟨"S", [.nonterminal "B", .nonterminal "D"]⟩, .number x⟩,
      ⟨⟨"S", [.nonterminal "C", .nonterminal "D"]⟩, .number 1⟩,
      ⟨⟨"B", [.terminal "a"]⟩, .number y⟩, ⟨⟨"D", [.terminal "b"]⟩, .number 1⟩,
      ⟨⟨"C", [.terminal "a"]⟩, .number 1⟩]⟩

lemma readWeighted_readings :
    readWeighted 4 ["S", "B", "C", "D"] "1.0 : S -> C D".toList =
        .ok ⟨⟨"S", [.nonterminal "C", .nonterminal "D"]⟩, Exact.number (1 : ℝ)⟩ ∧
      readWeighted 4 ["S", "B", "C", "D"] "1.0 : D -> b".toList =
        .ok ⟨⟨"D", [.terminal "b"]⟩, Exact.number (1 : ℝ)⟩ ∧
      readWeighted 4 ["S", "B", "C", "D"] "1.0 : C -> a".toList =
        .ok ⟨⟨"C", [.terminal "a"]⟩, Exact.number (1 : ℝ)⟩ := by
  refine ⟨readWeighted_one (v := "S -> C D".toList) ?_ ?_,
    readWeighted_one (v := "D -> b".toList) ?_ ?_,
    readWeighted_one (v := "C -> a".toList) ?_ ?_⟩ <;> cbv

/-- Reads the grammar from a file with the given productions of the first way. -/
lemma read_readings {file : String} {u v : List Char} {x y : ℝ}
    (hu : readWeighted 4 ["S", "B", "C", "D"] u =
      .ok ⟨⟨"S", [.nonterminal "B", .nonterminal "D"]⟩, Exact.number x⟩)
    (hv : readWeighted 4 ["S", "B", "C", "D"] v = .ok ⟨⟨"B", [.terminal "a"]⟩, Exact.number y⟩)
    (hsections : readSections ['N', 'T', 'S', 'P'] file = .ok
      [('N', ⟨1, ["S".toList, "B".toList, "C".toList, "D".toList]⟩),
        ('T', ⟨2, ["a".toList, "b".toList]⟩), ('S', ⟨3, ["S".toList]⟩),
        ('P', ⟨4, [u, "1.0 : S -> C D".toList, v, "1.0 : D -> b".toList,
          "1.0 : C -> a".toList]⟩)]) :
    readWeightedGrammar file = .ok (readingsGrammar x y) := by
  obtain ⟨hCD, hD, hC⟩ := readWeighted_readings
  rw [readWeightedGrammar, hsections]
  exact bind_eq_ok.2 ⟨_, rfl, bind_eq_ok.2 ⟨["S", "B", "C", "D"], rfl, bind_eq_ok.2 ⟨["a", "b"], rfl,
    bind_eq_ok.2 ⟨"S", rfl, bind_eq_ok.2 ⟨_, rfl, bind_eq_ok.2 ⟨(readingsGrammar x y).productions,
      by simp only [List.mapM_cons, hu, hCD, hv, hD, hC, List.mapM_nil]; rfl, rfl⟩⟩⟩⟩⟩⟩

lemma cost_one : Weight.cost (.number 1 : Exact ℝ) = .number 0 := by
  rw [Exact.cost_of_pos one_pos]
  simp [Numbers.cost]

lemma binaryCosts_readings (x y : ℝ) : binaryCosts (readingsGrammar x y) =
    [⟨"S", "B", "D", Weight.cost (.number x)⟩, ⟨"S", "C", "D", .number 0⟩] := by
  simp [binaryCosts, readingsGrammar, binaryCost?, Production.isBinary, Symbol.isNonterminal,
    Production.rhsNames, Symbol.name, cost_one]

lemma insideLexical_readings (x y : ℝ) : insideLexical (readingsGrammar x y) =
    relax (relax (relax ∅ ("B", 1) (Weight.cost (.number y))) ("D", 1) (.number 0)) ("C", 1)
      (.number 0) := by
  simp [insideLexical, readingsGrammar, Production.isLexical, Symbol.isTerminal, cost_one]

/-- The parse of the two letters in the second way. -/
lemma parses_readings (x y : ℝ) : (readingsGrammar x y).Parses [.nonterminal "S"]
    [.above "S" [.above "C" [.leaf "a"], .above "D" [.leaf "b"]]] ["a", "b"]
    [⟨⟨"S", [.nonterminal "C", .nonterminal "D"]⟩, .number 1⟩, ⟨⟨"C", [.terminal "a"]⟩, .number 1⟩,
      ⟨⟨"D", [.terminal "b"]⟩, .number 1⟩] := by
  have hC := Grammar.Parses.of_lexical (g := readingsGrammar x y)
    (p := ⟨⟨"C", [.terminal "a"]⟩, .number 1⟩) (by simp [readingsGrammar]) rfl
  have hD := Grammar.Parses.of_lexical (g := readingsGrammar x y)
    (p := ⟨⟨"D", [.terminal "b"]⟩, .number 1⟩) (by simp [readingsGrammar]) rfl
  exact Grammar.Parses.of_binary
    (p := ⟨⟨"S", [.nonterminal "C", .nonterminal "D"]⟩, .number 1⟩)
    (by simp [readingsGrammar]) rfl hC hD

/-! ### A reading with the probability zero -/

/-- A file in which the first way to read the letter has the probability zero. -/
def hiddenFile : String :=
  "N = \x7b\"S\", \"B\", \"C\", \"D\"\x7d\nT = \x7b\"a\", \"b\"\x7d\nS = \"S\"\n" ++
    "P = \x7b\"1.0 : S -> B D\", \"1.0 : S -> C D\", \"0.0 : B -> a\", \"1.0 : D -> b\", " ++
      "\"1.0 : C -> a\"\x7d\n"

lemma read_hiddenFile : readWeightedGrammar hiddenFile = .ok (readingsGrammar 1 0) := by
  refine read_readings (u := "1.0 : S -> B D".toList) (v := "0.0 : B -> a".toList)
    (readWeighted_one (v := "S -> B D".toList) ?_ ?_)
    (readWeighted_zero (v := "B -> a".toList) ?_ ?_) ?_ <;> decide +kernel

/-- The second way gives all estimates a bound. -/
lemma hasFiniteEstimates_hidden : HasFiniteEstimates (readingsGrammar 1 0) 2 := by
  have hinside : ∀ a, (insideTable (readingsGrammar 1 0) 2)[(a, 1)]? = _ := fun a =>
    getElem?_insideTable_one two_pos
  rw [insideLexical_readings, Exact.cost_zero] at hinside
  have hstart : (readingsGrammar 1 0).start = "S" := rfl
  intro name i l w hw
  rw [Estimates.outside?] at hw
  split at hw
  · have hcell : (outsideTable (readingsGrammar 1 0) (insideTable (readingsGrammar 1 0) 2)
        2)[(name, i, l)]? = some w := hw
    rw [outsideTable_two, binaryCosts_readings, cost_one, hstart] at hcell
    simp [outsideBelow, firstLengths, outsideStep, hinside, getElem?_relax,
      Std.HashMap.getElem?_insert] at hcell
    split_ifs at hcell <;> exact ⟨0, (Option.some.inj hcell).symm⟩
  · cases hw

/-- The letter is read in the second way. -/
theorem exists_weightedAStar_positive_hidden :
    readWeightedGrammar hiddenFile = .ok (readingsGrammar 1 0) ∧
      HasFiniteEstimates (readingsGrammar 1 0) 2 ∧
      ∃ schema fuel o, Algorithm.weightedAStar.compileTokens (.weighted (readingsGrammar 1 0))
          ["a", "b"] = .ok schema ∧ Deduction.run ⟨.lowerWins, none⟩ schema fuel = .ok o ∧
        o.isDerivable = true ∧ ∀ position ∈ o.goals, ∃ x u qs, o.chart.item? position =
          some (WeightedRule.item "S" 0 2 (.number x) [u]) ∧
            (readingsGrammar 1 0).Parses [.nonterminal "S"] [u] ["a", "b"] qs ∧
              ∀ p ∈ qs, p.IsPositive := by
  have hnormal : (readingsGrammar 1 0).unweighted.isChomskyNormal = true := by decide
  have hestimates : HasFiniteEstimates (readingsGrammar 1 0) ["a", "b"].length :=
    hasFiniteEstimates_hidden
  obtain ⟨schema, hschema, hall⟩ := weightedAStar_positive read_hiddenFile hnormal (by decide)
    hestimates (parses_readings 1 0) (by simp [Production.IsPositive])
  obtain ⟨fuel, o, hrun⟩ : ∃ fuel o, Deduction.run ⟨.lowerWins, none⟩ schema fuel = .ok o :=
    (joinsSpans_weightedAStar hnormal hschema).exists_run nofun
  obtain ⟨hderivable, hgoals⟩ := hall none fuel o hrun
  exact ⟨read_hiddenFile, hasFiniteEstimates_hidden, schema, fuel, o, hschema, hrun, hderivable,
    hgoals⟩

/-! ### A use with the probability zero -/

/-- A file in which the first way to read the letter is used with the probability zero. -/
def hidingFile : String :=
  "N = \x7b\"S\", \"B\", \"C\", \"D\"\x7d\nT = \x7b\"a\", \"b\"\x7d\nS = \"S\"\n" ++
    "P = \x7b\"0.0 : S -> B D\", \"1.0 : S -> C D\", \"1.0 : B -> a\", \"1.0 : D -> b\", " ++
      "\"1.0 : C -> a\"\x7d\n"

lemma read_hidingFile : readWeightedGrammar hidingFile = .ok (readingsGrammar 0 1) := by
  refine read_readings (u := "0.0 : S -> B D".toList) (v := "1.0 : B -> a".toList)
    (readWeighted_zero (v := "S -> B D".toList) ?_ ?_)
    (readWeighted_one (v := "B -> a".toList) ?_ ?_) ?_ <;> decide +kernel

/-- The estimate around the first way to read the letter is infinite. -/
lemma outside?_hiding :
    (Estimates.ofGrammar (readingsGrammar 0 1) 2).outside? "B" 0 1 = some (.infinite false) ∧
      (Estimates.ofGrammar (readingsGrammar 0 1) 2).outside? "D" 1 1 = some (.number 0) ∧
        (Estimates.ofGrammar (readingsGrammar 0 1) 2).outside? "C" 0 1 = some (.number 0) := by
  have hinside : ∀ a, (insideTable (readingsGrammar 0 1) 2)[(a, 1)]? = _ := fun a =>
    getElem?_insideTable_one two_pos
  rw [insideLexical_readings, cost_one] at hinside
  have hstart : (readingsGrammar 0 1).start = "S" := rfl
  have hcell : ∀ name i, i < 2 → (Estimates.ofGrammar (readingsGrammar 0 1) 2).outside? name i 1 =
      (outsideTable (readingsGrammar 0 1) (insideTable (readingsGrammar 0 1) 2) 2)[(name, i, 1)]? :=
    fun name i hi => if_pos (Nat.succ_le_of_lt hi)
  rw [hcell _ _ two_pos, hcell _ _ one_lt_two, hcell _ _ two_pos, outsideTable_two,
    binaryCosts_readings, Exact.cost_zero, hstart]
  simp [outsideBelow, firstLengths, outsideStep, hinside, getElem?_relax]

/-- The schema for the two letters. -/
lemma weightedAStar_hiding : Schema.weightedAStar (readingsGrammar 0 1) ["a", "b"] =
    .ok (.make
      [Schema.weightedFact ⟨⟨"B", [.terminal "a"]⟩, .number 1⟩ 0 1 (.infinite false),
        Schema.weightedFact ⟨⟨"D", [.terminal "b"]⟩, .number 1⟩ 1 2 (.number 0),
        Schema.weightedFact ⟨⟨"C", [.terminal "a"]⟩, .number 1⟩ 0 1 (.number 0)]
      [.weighted (.guided ⟨⟨"S", [.nonterminal "B", .nonterminal "D"]⟩, .number 0⟩
          (.ofGrammar (readingsGrammar 0 1) 2)),
        .weighted (.guided ⟨⟨"S", [.nonterminal "C", .nonterminal "D"]⟩, .number 1⟩
          (.ofGrammar (readingsGrammar 0 1) 2))]
      [Schema.wholeSpan "S" ["a", "b"]]) := by
  obtain ⟨hB, hD, hC⟩ := outside?_hiding
  have haxioms : (readingsGrammar 0 1).productions.flatMap
      (Schema.costAxioms (.ofGrammar (readingsGrammar 0 1) 2) ["a", "b"]) =
        [Schema.weightedFact ⟨⟨"B", [.terminal "a"]⟩, .number 1⟩ 0 1 (.infinite false),
          Schema.weightedFact ⟨⟨"D", [.terminal "b"]⟩, .number 1⟩ 1 2 (.number 0),
          Schema.weightedFact ⟨⟨"C", [.terminal "a"]⟩, .number 1⟩ 0 1 (.number 0)] := by
    generalize Estimates.ofGrammar (readingsGrammar 0 1) 2 = estimates at hB hD hC ⊢
    simp [readingsGrammar, Schema.costAxioms, Production.isLexical, Production.isEmpty,
      Production.rhsNames, Symbol.isTerminal, Symbol.name, Schema.placesOf, hB, hD, hC, cost_one]
  have hnormal : (readingsGrammar 0 1).unweighted.isChomskyNormal = true := by decide
  rw [Schema.weightedAStar, hnormal, ← haxioms]
  rfl

/-- An infinite estimate is taken off an infinite cost. -/
lemma exists_fire?_hiding : ∃ f, (Rule.weighted (.guided
    ⟨⟨"S", [.nonterminal "B", .nonterminal "D"]⟩, .number 0⟩
      (.ofGrammar (readingsGrammar 0 1) 2))).fire?
        [WeightedRule.item "B" 0 1 (.infinite false) [.above "B" [.leaf "a"]],
          WeightedRule.item "D" 1 2 (.number 0) [.above "D" [.leaf "b"]]] = some f ∧
      f.items = [WeightedRule.item "S" 0 2 .undefined
        [.above "S" [.above "B" [.leaf "a"], .above "D" [.leaf "b"]]]] := by
  obtain ⟨hB, hD, -⟩ := outside?_hiding
  have hweight : Weight.add (Weight.add (Weight.add (Weight.cost (.number (0 : ℝ)))
      (Weight.sub (.infinite false) (.infinite false)))
        (Weight.sub (.number 0) (.number 0))) Weight.zero = Exact.undefined := by
    rw [Exact.cost_zero]
    rfl
  have htrees : Forest.fillings (.ofProduction ⟨"S", [.nonterminal "B", .nonterminal "D"]⟩)
      [[Tree.above "B" [.leaf "a"]], [.above "D" [.leaf "b"]]] =
        [.above "S" [.above "B" [.leaf "a"], .above "D" [.leaf "b"]]] := by decide
  refine ⟨_, WeightedRule.fire?_of_join (WeightedRule.joinGuided_eq_some_iff.2
    ⟨⟨rfl, Nat.zero_le 1, one_le_two, rfl⟩, _, hB, _, hD, _,
      Estimates.outside?_start (readingsGrammar 0 1) 2, rfl⟩), ?_⟩
  simp only [hweight, htrees]
  rfl

/-- The use of the first way is concluded first. Its weight is undefined, since an infinite estimate
is taken off an infinite cost, and nothing is preferred to that: the tree of the second way, whose
cost is zero, does not take its place. -/
theorem exists_undefined_goal :
    readWeightedGrammar hidingFile = .ok (readingsGrammar 0 1) ∧
      (readingsGrammar 0 1).unweighted.isChomskyNormal = true ∧
      (readingsGrammar 0 1).unweighted.productions.Nodup ∧
      (∃ t ps, (readingsGrammar 0 1).Parses [.nonterminal "S"] [t] ["a", "b"] ps ∧
        ∀ p ∈ ps, p.IsPositive) ∧
      ∃ schema fuel o, Algorithm.weightedAStar.compileTokens (.weighted (readingsGrammar 0 1))
          ["a", "b"] = .ok schema ∧ Deduction.run ⟨.lowerWins, none⟩ schema fuel = .ok o ∧
        ∃ position ∈ o.goals, o.chart.item? position = some (WeightedRule.item "S" 0 2 .undefined
          [.above "S" [.above "B" [.leaf "a"], .above "D" [.leaf "b"]]]) := by
  have hnormal : (readingsGrammar 0 1).unweighted.isChomskyNormal = true := by decide
  obtain ⟨fuel, o, hrun⟩ : ∃ fuel o, Deduction.run ⟨.lowerWins, none⟩ _ fuel = .ok o :=
    (joinsSpans_weightedAStar hnormal weightedAStar_hiding).exists_run nofun
  obtain ⟨s, hs, rfl⟩ := Deduction.run_eq_ok hrun
  refine ⟨read_hidingFile, hnormal, by decide, ⟨_, _, parses_readings 0 1,
    by simp [Production.IsPositive]⟩, _, fuel, _, weightedAStar_hiding, hrun, ?_⟩
  obtain ⟨f, hfire, hitems⟩ := exists_fire?_hiding
  have hfinal : ∀ w, Policy.lowerWins.prefers w (some (.undefined : Exact ℝ)) = false := by
    rintro (_ | v)
    · rfl
    · exact Exact.less_undefined v
  obtain ⟨position, hitem⟩ := Deduction.mem_items_of_first_firing (by decide) hs rfl (by decide) rfl
    rfl hfire hitems (by decide) hfinal
  refine ⟨position, (Deduction.mem_goals_ofChart
    (Deduction.consistent_of_finalState hs).1.indexed).2 ⟨_, hitem, ?_⟩, hitem⟩
  exact (exists_goal_wholeSpan_iff (g := readingsGrammar 0 1)).2 rfl

end Readings

end DeductiveParsing.Weighted
