/-
Parsing with probabilities finds most probable parses.

* `Weighted.probability`: the product of the probabilities of productions;
* `Weighted.probabilities`: parses weighed by their probabilities;
* `Weighted.weightedCyk_exact`: at the end of a run, every entry has the greatest probability of a
  parse of its span, carries a parse with it, and has a derivation that gives it.
-/
import DeductiveParsing.Algorithm
import DeductiveParsing.Proofs.GrammarFile.Weighted
import DeductiveParsing.Proofs.Weight.Exact
import DeductiveParsing.Proofs.Weighted.Termination
import DeductiveParsing.Proofs.Weighted.Weighing

namespace DeductiveParsing.Weighted

open ContextFree (word)
open Deduction (bind_eq_ok)
open GrammarFile (doubtfulGrammar)

variable {K : Type} [Numbers K] {g : Grammar (Exact K)} {tokens : List String}
  {ps qs : List (Production (Exact K))} {p : Production (Exact K)}

/-- The product of the probabilities of productions. -/
def probability (ps : List (Production (Exact K))) : K := (ps.map fun p => p.weight.value).prod

@[simp]
lemma probability_node (p : Production (Exact K)) (ps qs : List (Production (Exact K))) :
    probability (p :: (ps ++ qs)) = p.weight.value * probability ps * probability qs := by
  simp [probability, mul_assoc]

/-- Whether all weights of a grammar are numbers that are not negative. -/
def HasProbabilities (g : Grammar (Exact K)) : Prop :=
  ∀ p ∈ g.productions, ∃ x, 0 ≤ x ∧ p.weight = .number x

lemma HasProbabilities.weight_eq (hweights : HasProbabilities g) (hp : p ∈ g.productions) :
    p.weight = .number p.weight.value := by
  obtain ⟨x, -, hx⟩ := hweights p hp
  rw [hx, Exact.value]

lemma HasProbabilities.value_nonneg (hweights : HasProbabilities g) (hp : p ∈ g.productions) :
    0 ≤ p.weight.value := by
  obtain ⟨x, h0, hx⟩ := hweights p hp
  rwa [hx, Exact.value]

lemma HasProbabilities.probability_nonneg (hweights : HasProbabilities g)
    (hps : ps ⊆ g.productions) : 0 ≤ probability ps := by
  refine List.prod_nonneg fun x hx => ?_
  obtain ⟨p, hp, rfl⟩ := List.mem_map.1 hx
  exact hweights.value_nonneg (hps hp)

/-- Parses weighed by their probabilities. -/
def probabilities (tokens : List String) (hweights : HasProbabilities g) :
    Weighing g tokens .higherWins K where
  value := probability
  Covers _ _ l := 0 < l ∨ tokens = []
  mark _ l := l
  weigh _ _ _ v := .number v
  rule := .product
  mark_injective := id
  value_mono p hp ps ps' qs qs' hps hps' hqs hqs' hle hle' := by
    have hp0 := hweights.value_nonneg hp
    have hps0 := hweights.probability_nonneg hps'
    have hqs0 := hweights.probability_nonneg hqs
    rw [probability_node, probability_node]
    gcongr
  prefers_iff v v' _ := by simp [Policy.prefers]
  covers_zero := by simp
  covers_parts p hp b c t u v w ps qs i hrhs _ _ hv hw _ :=
    ⟨Or.inl (List.length_pos_iff.2 hv), Or.inl (List.length_pos_iff.2 hw)⟩
  join_iff p hp b c i j l m ps qs t u f hcovers _ _ _ := by
    have hcovers' : 0 < l + m ∨ tokens = [] := hcovers.imp_left fun hl => by omega
    have hmul : Weight.mul (Weight.mul p.weight (.number (probability ps)))
        (.number (probability qs)) = .number (probability (p :: (ps ++ qs))) := by
      rw [hweights.weight_eq hp, Exact.mul_number, Exact.mul_number, probability_node]
    rw [WeightedRule.join, WeightedRule.joinProduct_eq_some_iff, hmul]
    tauto

/-! ### The schema -/

section Schema

variable {W : Type} [Weight W] {q : Production W} {x : Item W}

/-- The items of axioms are the spans that a production covers at once, with its weight. -/
lemma exists_mem_probableAxioms_iff :
    (∃ a ∈ Schema.probableAxioms tokens q, x ∈ a.items) ↔ ∃ i l, Scans tokens q.production i l ∧
      x = WeightedRule.item q.production.lhs i l q.weight [.ofProduction q.production] := by
  rw [Schema.probableAxioms]
  constructor
  · rintro ⟨a, ha, hx⟩
    split at ha
    · rename_i b hlexical hnames
      obtain ⟨b', hrhs⟩ := Cyk.rhs_of_isLexical hlexical
      obtain rfl : b' = b := by simpa [Production.rhsNames, hrhs, Symbol.name] using hnames
      obtain ⟨i, hi, rfl⟩ := List.mem_map.1 ha
      exact ⟨i, 1, .token hrhs (Cyk.mem_placesOf.1 hi), List.mem_singleton.1 hx⟩
    · split at ha
      · rename_i hempty
        obtain ⟨hrhs, htokens⟩ : q.production.rhs = [] ∧ tokens = [] := by
          simpa [Production.isEmpty] using hempty
        obtain rfl := List.mem_singleton.1 ha
        exact ⟨0, 0, .empty hrhs htokens, List.mem_singleton.1 hx⟩
      · cases ha
  · rintro ⟨i, l, hscans, rfl⟩
    cases hscans with
    | @token b i hrhs htoken =>
        have hlexical : q.production.isLexical = true := by
          simp [Production.isLexical, hrhs, Symbol.isTerminal]
        have hnames : q.production.rhsNames = [b] := by
          rw [Production.rhsNames, hrhs]
          rfl
        rw [hlexical, hnames]
        exact ⟨_, List.mem_map_of_mem (Cyk.mem_placesOf.2 htoken), List.mem_singleton_self _⟩
    | empty hrhs htokens =>
        have hlexical : q.production.isLexical = false := by simp [Production.isLexical, hrhs]
        rw [hlexical]
        simp [Production.isEmpty, hrhs, htokens, Schema.weightedFact, Schema.fact]

/-- The items of axioms are the spans that productions cover at once. -/
lemma exists_mem_axioms_weightedCyk_iff {g : Grammar W} {schema : Schema W}
    (hschema : Schema.weightedCyk g tokens = .ok schema) :
    (∃ a ∈ schema.axioms, x ∈ a.items) ↔ ∃ p ∈ g.productions, ∃ i l,
      Scans tokens p.production i l ∧
        x = WeightedRule.item p.production.lhs i l p.weight [.ofProduction p.production] := by
  obtain ⟨-, -, hschema⟩ := bind_eq_ok.1 hschema
  obtain rfl := Except.ok.inj hschema
  constructor
  · rintro ⟨a, ha, hx⟩
    obtain ⟨p, hp, ha⟩ := List.mem_flatMap.1 ha
    exact ⟨p, hp, exists_mem_probableAxioms_iff.1 ⟨a, ha, hx⟩⟩
  · rintro ⟨p, hp, hscans⟩
    obtain ⟨a, ha, hx⟩ := exists_mem_probableAxioms_iff.2 hscans
    exact ⟨a, List.mem_flatMap.2 ⟨p, hp, ha⟩, hx⟩

/-- The rules are those of the binary productions. -/
lemma mem_rules_weightedCyk_iff {g : Grammar W} {schema : Schema W}
    (hschema : Schema.weightedCyk g tokens = .ok schema) {rule : Rule W} :
    rule ∈ schema.rules ↔ ∃ p ∈ g.productions, p.production.isBinary = true ∧
      rule = .weighted (.product p) := by
  obtain ⟨-, -, hschema⟩ := bind_eq_ok.1 hschema
  obtain rfl := Except.ok.inj hschema
  simp only [Schema.make, List.mem_map, List.mem_filter, and_assoc]
  exact ⟨fun ⟨p, hp, hbinary, heq⟩ => ⟨p, hp, hbinary, heq.symm⟩,
    fun ⟨p, hp, hbinary, heq⟩ => ⟨p, hp, hbinary, heq.symm⟩⟩

/-- The schema joins spans as the binary productions say. -/
lemma joinsSpans_weightedCyk {g : Grammar W} {schema : Schema W}
    (hnormal : g.unweighted.isChomskyNormal = true)
    (hschema : Schema.weightedCyk g tokens = .ok schema) :
    JoinsSpans g tokens (fun _ l => l) (fun _ l => l) schema := by
  refine ⟨hnormal, fun _ _ => rfl, fun a ha x hx => ?_, fun rule hrule => ?_⟩
  · obtain ⟨p, hp, i, l, hscans, rfl⟩ := (exists_mem_axioms_weightedCyk_iff hschema).1 ⟨a, ha, hx⟩
    exact ⟨p, hp, i, l, _, _, hscans, rfl⟩
  · obtain ⟨p, hp, hbinary, rfl⟩ := (mem_rules_weightedCyk_iff hschema).1 hrule
    refine ⟨p, hp, hbinary, _, rfl, fun b c i j l m v w ts us f hjoin => ?_⟩
    obtain ⟨hplaces, hnames, rfl⟩ := WeightedRule.joinProduct_eq_some_iff.1 hjoin
    exact ⟨hplaces, hnames, _, _, rfl⟩

end Schema

lemma item_single (hweights : HasProbabilities g) (hp : p ∈ g.productions) (i l : ℕ) :
    (probabilities tokens hweights).item p.production.lhs i l [p] (.ofProduction p.production) =
      WeightedRule.item p.production.lhs i l p.weight [.ofProduction p.production] := by
  rw [hweights.weight_eq hp]
  simp [Weighing.item, probabilities, probability, WeightedRule.item, Item.weighted, Cyk.form]

/-- The axioms and the rules of the schema are those of probabilities. -/
lemma suits_probabilities (hweights : HasProbabilities g) {schema : Schema (Exact K)}
    (hschema : Schema.weightedCyk g tokens = .ok schema) :
    (probabilities tokens hweights).Suits schema := by
  refine ⟨fun x => (exists_mem_axioms_weightedCyk_iff hschema).trans ⟨?_, ?_⟩,
    fun rule => mem_rules_weightedCyk_iff hschema, fun f => ?_⟩
  · rintro ⟨p, hp, i, l, hscans, rfl⟩
    exact ⟨p, hp, i, l, hscans, hscans.pos_or_eq_nil, (item_single hweights hp i l).symm⟩
  · rintro ⟨p, hp, i, l, hscans, -, rfl⟩
    exact ⟨p, hp, i, l, hscans, item_single hweights hp i l⟩
  · obtain ⟨-, -, hschema⟩ := bind_eq_ok.1 hschema
    obtain rfl := Except.ok.inj hschema
    exact exists_goal_wholeSpan_iff

/-- Parsing with probabilities finds most probable parses: the grammar has the productions of one
that is read, in Chomsky normal form and without repetitions, and instead of the weights there it
may have any that are not negative. When the run for an input has ended, the chart has the spans
that have a parse. Each has the greatest probability of one, the tree of one with that probability,
and one derivation, which gives this weight from those that the antecedents have at the end. -/
theorem weightedCyk_exact {U : Type} [Weight U] {file : String} {g₀ : Grammar U}
    (hread : GrammarFile.readWeightedGrammar file = .ok g₀) (hsame : g.unweighted = g₀.unweighted)
    (hnormal : g.unweighted.isChomskyNormal = true)
    (hnodup : g.unweighted.productions.Nodup) (hweights : HasProbabilities g)
    (tokens : List String) :
    ∃ schema, Algorithm.weightedCyk.compileTokens (.weighted g) tokens = .ok schema ∧
      ∀ (limit : Option ℕ) (fuel : ℕ) (o : Outcome (Exact K)),
        Deduction.run ⟨.higherWins, limit⟩ schema fuel = .ok o →
        (∀ name i l, Cyk.form name i l ∈ o.chart.forms ↔ i + l ≤ tokens.length ∧
          (0 < l ∨ tokens = []) ∧
            g.unweighted.Derives [.nonterminal name] (word (span tokens i (i + l)))) ∧
        ∀ (position : ℕ) (e : Entry (Exact K)), o.chart.entries[position]? = some e →
          ∃ name i l x t ps d, e = ⟨WeightedRule.item name i l (.number x) [t], [d]⟩ ∧
            i + l ≤ tokens.length ∧ g.Parses [.nonterminal name] [t] (span tokens i (i + l)) ps ∧
              probability ps = x ∧
                IsGreatest (g.valuesOf probability name (span tokens i (i + l))) x ∧
                  Deduction.Reproduces schema o.chart e d := by
  have hg : g.unweighted.IsWellFormed :=
    hsame ▸ GrammarFile.isWellFormed_of_readWeightedGrammar hread
  obtain ⟨schema, hschema⟩ : ∃ schema, Schema.weightedCyk g tokens = .ok schema :=
    ⟨_, by rw [Schema.weightedCyk, hnormal]; rfl⟩
  have hsuits := suits_probabilities hweights hschema
  refine ⟨schema, hschema, fun limit fuel o hrun => ?_⟩
  obtain ⟨s, hs, rfl⟩ := Deduction.run_eq_ok hrun
  refine ⟨fun name i l => ?_, fun position e he => ?_⟩
  · rw [← Grammar.nonempty_valuesOf_iff probability]
    refine (Weighing.form_mem_iff hg hnormal hsuits nofun hnodup hs).trans ⟨?_, fun h => ⟨l, rfl, h⟩⟩
    rintro ⟨l, rfl, h⟩
    exact h
  · obtain ⟨name, i, l, ps, t, d, rfl, hparse, hgreatest, hreproduces⟩ :=
      Weighing.entry_exact hg hnormal hsuits nofun hnodup hs he
    exact ⟨name, i, l, _, t, ps, d, rfl, hparse.le_length, hparse.parses, rfl,
      hgreatest, hreproduces⟩

/-- Of two letters, the first is read as the likely one: the whole input has the probability one
tenth at least, instead of one fiftieth. -/
theorem exists_weightedCyk_exact_doubtful :
    GrammarFile.readWeightedGrammar GrammarFile.doubtfulFile = .ok doubtfulGrammar ∧
      ∃ schema fuel o, Algorithm.weightedCyk.compileTokens (.weighted doubtfulGrammar) ["a", "a"] =
          .ok schema ∧ Deduction.run ⟨.higherWins, none⟩ schema fuel = .ok o ∧
        ∃ (position : ℕ) (x : ℚ) (t : Tree) (d : Derivation), o.chart.entries[position]? =
          some ⟨WeightedRule.item "S" 0 2 (.number x) [t], [d]⟩ ∧ 1 / 10 ≤ x ∧
            Deduction.Reproduces schema o.chart
              ⟨WeightedRule.item "S" 0 2 (.number x) [t], [d]⟩ d := by
  have hnormal : doubtfulGrammar.unweighted.isChomskyNormal = true := by decide
  have hweights : HasProbabilities doubtfulGrammar := by
    simp [HasProbabilities, doubtfulGrammar]
  obtain ⟨schema, hschema, hall⟩ := weightedCyk_exact GrammarFile.read_doubtfulFile rfl hnormal (by decide)
    hweights ["a", "a"]
  obtain ⟨fuel, o, hrun⟩ : ∃ fuel o, Deduction.run ⟨.higherWins, none⟩ schema fuel = .ok o :=
    (joinsSpans_weightedCyk hnormal hschema).exists_run nofun
  obtain ⟨hforms, hentries⟩ := hall none fuel o hrun
  -- the parse with the likely letter first
  have hB := Grammar.Parses.of_lexical (g := doubtfulGrammar)
    (p := ⟨⟨"B", [.terminal "a"]⟩, .number 1⟩) (by simp [doubtfulGrammar]) rfl
  have hA := Grammar.Parses.of_lexical (g := doubtfulGrammar)
    (p := ⟨⟨"A", [.terminal "a"]⟩, .number (1 / 5)⟩) (by simp [doubtfulGrammar]) rfl
  have hS := Grammar.Parses.of_binary
    (p := ⟨⟨"S", [.nonterminal "B", .nonterminal "A"]⟩, .number (1 / 2)⟩)
    (by simp [doubtfulGrammar]) rfl hB hA
  have hvalue : (1 / 10 : ℚ) ∈ doubtfulGrammar.valuesOf probability "S" (span ["a", "a"] 0 2) :=
    ⟨_, _, hS, by norm_num [probability, Exact.value]⟩
  obtain ⟨y, ⟨position, hy⟩, hform⟩ := Chart.mem_forms_iff.1
    ((hforms "S" 0 2).2 ⟨le_rfl, Or.inl Nat.two_pos, hS.spells.derives⟩)
  obtain ⟨e, he, rfl⟩ := Chart.item?_eq_some_iff.1 hy
  obtain ⟨name, i, l, x, t, ps, d, rfl, -, -, -, hgreatest, hreproduces⟩ := hentries position e he
  obtain ⟨rfl, rfl, rfl⟩ := Cyk.form_injective hform
  exact ⟨GrammarFile.read_doubtfulFile, schema, fuel, o, hschema, hrun, position, x, t, d, he,
    hgreatest.2 hvalue, hreproduces⟩

end DeductiveParsing.Weighted
