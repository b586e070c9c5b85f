/-
The policy of a run does not cover axioms: an item whose form is in the chart already is left out,
whatever its weight.

* `Schema.Concludes`: the items that rules conclude;
* `exists_item_of_axiom`: at the end, the chart has the first item of an axiom with each form, or a
  preferred one that a rule has concluded;
* `exists_settled_of_merge`: and nothing that a rule has concluded is preferred to it;
* `mem_items_of_first_lexical`: of equal productions for a token, parsing with probabilities takes
  the first;
* `run_firstAxiom`: all of this for a run;
* `exists_run_worse_than_axiom`: the second of two axioms may have a preferred weight.
-/
import DeductiveParsing.Proofs.Deduction.Beginning
import DeductiveParsing.Proofs.Deduction.FirstAxioms
import DeductiveParsing.Proofs.Deduction.Fixpoint

namespace DeductiveParsing

variable {W : Type} [Weight W]

/-- Whether an item is concluded by a rule, from items that the schema gives at all. -/
def Schema.Concludes (schema : Schema W) (x : Item W) : Prop :=
  ∃ rule ∈ schema.rules, ∃ xs f, (∀ z ∈ xs, schema.Yields z) ∧ rule.fire? xs = some f ∧ x ∈ f.items

namespace Deduction

variable {settings : Settings} {schema : Schema W} {s t : State W} {x y : Item W} {fuel : ℕ}

/-! ### First items and conclusions -/

/-- Whether every item of a chart is the first one of an axiom with its form, or a conclusion. -/
def HoldsFirstOrConcluded (schema : Schema W) (c : Chart W) : Prop :=
  ∀ x ∈ c.items, (∃ name, schema.firstAxiom? x.form = some (name, x)) ∨ schema.Concludes x

lemma HoldsFirstOrConcluded.yields {c : Chart W} (h : HoldsFirstOrConcluded schema c)
    (hx : x ∈ c.items) : schema.Yields x := by
  rcases h x hx with ⟨name, hfirst⟩ | ⟨rule, hrule, xs, f, hxs, hf, hmem⟩
  · obtain ⟨a, ha, -, hmem⟩ := Schema.mem_axiomItems.1 (List.mem_of_find?_eq_some hfirst)
    exact .given ha hmem
  · exact .concluded hrule hxs hf hmem

/-- Behind the axioms only first items are in the chart. -/
lemma holdsFirstOrConcluded_of_seed (h : seed settings schema = .ok s) :
    HoldsFirstOrConcluded schema s.chart := by
  rintro x ⟨i, hi⟩
  obtain ⟨e, he, rfl⟩ := Chart.item?_eq_some_iff.1 hi
  obtain ⟨a, ha, rfl⟩ := (holdsAxioms_of_seed h).entries_eq i e he
  exact Or.inl ⟨a.1, ha⟩

/-- Trying a rule only brings conclusions into the chart. -/
lemma HoldsFirstOrConcluded.of_applyAt (hpolicy : settings.policy ≠ .accumulate) {rule : Rule W}
    (hrule : rule ∈ schema.rules) {positions : List ℕ} (hs : s.Consistent)
    (hholds : HoldsFirstOrConcluded schema s.chart)
    (h : s.applyAt settings rule positions = .ok t) : HoldsFirstOrConcluded schema t.chart := by
  rcases State.applyAt_cases h with ⟨-, rfl⟩ | ⟨xs, f, hxs, hf, hfold⟩
  · exact hholds
  have hyields : ∀ z ∈ xs, schema.Yields z := fun z hz =>
    hholds.yields (Chart.mem_items_of_map (mapM_eq_some_iff.1 hxs) z hz)
  refine (foldlM_induction (P := fun u => Grows settings s u ∧
    HoldsFirstOrConcluded schema u.chart) hfold ⟨.refl, hholds⟩ ?_).2
  rintro u y v hy ⟨hgrows, hu⟩ hv
  refine ⟨hgrows.tail ⟨y, _, hv⟩, fun x hx => ?_⟩
  rcases State.mem_items_of_merge hpolicy (hgrows.consistent_and_evolves hs).1 hv hx with hx | rfl
  · exact hu x hx
  · exact Or.inr ⟨rule, hrule, xs, f, hyields, hf, hy⟩

/-- At the end every item is the first one of an axiom with its form, or a conclusion. -/
lemma holdsFirstOrConcluded_of_drain (hpolicy : settings.policy ≠ .accumulate) (hs : s.Consistent)
    (hholds : HoldsFirstOrConcluded schema s.chart) (h : drain settings schema fuel s = .ok t) :
    HoldsFirstOrConcluded schema t.chart := by
  refine (drain_induction (P := fun s => s.Consistent ∧ HoldsFirstOrConcluded schema s.chart) h
    ⟨hs, hholds⟩ ?_).1.2
  rintro s first agenda t ⟨hs, hholds⟩ hnext ht
  have hpop := hs.pop hnext
  exact ⟨((Grows.of_expand ht).consistent_and_evolves hpop).1, expand_induction_applyAt
    (fun _ _ _ _ hrule _ hs hholds => hholds.of_applyAt hpolicy hrule hs) hpop hholds ht⟩

variable [OrderedWeight W]

/-- At the end the chart has the first item of an axiom with each form, or a preferred one that a
rule has concluded. -/
lemma exists_item_of_axiom (hpolicy : settings.policy ≠ .accumulate)
    (h : finalState settings schema fuel = .ok t) {name : String}
    (hy : (name, y) ∈ schema.axiomItems) :
    ∃ a, schema.firstAxiom? y.form = some a ∧ ∃ x ∈ t.chart.items, x.form = y.form ∧
      (x = a.2 ∨ settings.policy.prefers x.weight a.2.weight = true ∧ schema.Concludes x) := by
  obtain ⟨s, hseed, hdrain⟩ := finalState_eq_ok h
  have hconsistent := (consistent_of_seed hseed).1
  obtain ⟨hforms, hentries⟩ := holdsAxioms_of_seed hseed
  obtain ⟨i, hi⟩ := hforms _ hy
  obtain ⟨z, hz, hzform⟩ := Option.map_eq_some_iff.1 hi
  obtain ⟨e, he, rfl⟩ := Chart.item?_eq_some_iff.1 hz
  obtain ⟨a, ha, rfl⟩ := hentries i e he
  have hfirst : schema.firstAxiom? y.form = some a := hzform ▸ ha
  obtain ⟨x, hx, hform, hbetter⟩ := improves_of_drain hpolicy hconsistent hdrain i a.2 hz
  refine ⟨a, hfirst, x, ⟨i, hx⟩, hform.trans hzform, ?_⟩
  rcases holdsFirstOrConcluded_of_drain hpolicy hconsistent (holdsFirstOrConcluded_of_seed hseed)
    hdrain x ⟨i, hx⟩ with ⟨name', hname⟩ | hconcludes
  · -- only one item is the first with its form
    rw [hform.trans hzform, hfirst] at hname
    exact Or.inl (congrArg Prod.snd (Option.some.inj hname)).symm
  · exact hbetter.imp_right fun hprefers => ⟨hprefers, hconcludes⟩

/-- Nothing that is merged in a run is preferred to what the chart has for its form at the end. -/
lemma exists_settled_of_merge (hpolicy : settings.policy ≠ .accumulate)
    (h : finalState settings schema fuel = .ok t) {m : Moment W}
    (hm : Moment.Reaches settings schema (.start schema) m) {d : Derivation}
    {rest : List (Task W)} (htasks : m.tasks = .merge y d :: rest) :
    ∃ x ∈ t.chart.items, x.form = y.form ∧ settings.policy.prefers y.weight x.weight = false := by
  obtain ⟨tasks, s⟩ := m
  obtain rfl : tasks = .merge y d :: rest := htasks
  have hs : s.Consistent := ((invariant_records settings schema).of_reaches hm).1.1
  rcases Relation.ReflTransGen.cases_head (reaches_finalState_of_reaches h hm) with
    heq | ⟨m', hstep, hreaches⟩
  · cases heq
  · cases hstep with
    | @perform _ _ _ m hperform =>
        obtain ⟨u, hu, rfl⟩ := exists_of_map_eq_ok hperform
        obtain ⟨z, ⟨i, hz⟩, hform, hworse⟩ := (settling hpolicy).of_merge hs hu
        have hconsistent := (MergeStep.of_merge hu).consistent hs
        obtain ⟨x, hx, himproves⟩ := Moment.Reaches.improves hpolicy hreaches hconsistent i z hz
        exact ⟨x, ⟨i, hx⟩, himproves.1.trans hform, himproves.prefers_eq_false hworse⟩

/-! ### Equal productions -/

section Lexical

open Weighted (Scans exists_mem_axioms_weightedCyk_iff exists_mem_probableAxioms_iff
  joinsSpans_weightedCyk)

/-- The first element with a property in lists in a row is found in the list of the first element of
which that is true. -/
lemma exists_find?_flatMap {α β : Type} {l : List α} {f : α → List β} {P : α → Bool}
    {Q : β → Bool} {a : α} (ha : l.find? P = some a) (hfound : ∃ b ∈ f a, Q b = true)
    (hnone : ∀ a ∈ l, P a = false → ∀ b ∈ f a, Q b = false) :
    ∃ b ∈ f a, (l.flatMap f).find? Q = some b := by
  induction l with
  | nil => cases ha
  | cons c l ih =>
      rw [List.flatMap_cons, List.find?_append]
      cases hc : P c with
      | true =>
          obtain rfl : c = a := by simpa [List.find?_cons, hc] using ha
          obtain ⟨b, hb⟩ := Option.isSome_iff_exists.1 (List.find?_isSome.2 hfound)
          exact ⟨b, List.mem_of_find?_eq_some hb, by rw [hb]; rfl⟩
      | false =>
          have hskip : (f c).find? Q = none :=
            List.find?_eq_none.2 fun b hb => by simp [hnone c List.mem_cons_self hc b hb]
          obtain ⟨b, hb, hfind⟩ := ih (by simpa [List.find?_cons, hc] using ha) fun d hd =>
            hnone d (List.mem_cons_of_mem _ hd)
          exact ⟨b, hb, by rw [hskip, hfind]; rfl⟩

variable {g : Weighted.Grammar W} {tokens : List String} {name token : String} {i : ℕ}
  {q : Weighted.Production W}

omit [OrderedWeight W] in
/-- The first axiom for a name over a token is that of the first production for both. -/
lemma firstAxiom?_of_lexical (hschema : Schema.weightedCyk g tokens = .ok schema)
    (htoken : tokens[i]? = some token)
    (hq : g.productions.find? (fun p => p.production = ⟨name, [.terminal token]⟩) = some q) :
    (schema.firstAxiom? (Cyk.form name i 1)).map Prod.snd =
      some (WeightedRule.item name i 1 q.weight [.ofProduction q.production]) := by
  have hproduction : q.production = ⟨name, [.terminal token]⟩ := by simpa using List.find?_some hq
  -- the items that a production gives
  have hitems : ∀ {p : Weighted.Production W} {b : String × Item W},
      b ∈ (Schema.probableAxioms tokens p).flatMap (fun a => a.items.map fun x => (a.name, x)) →
        b.2.form = Cyk.form name i 1 → p.production = ⟨name, [.terminal token]⟩ ∧
          b.2 = WeightedRule.item name i 1 p.weight [.ofProduction p.production] := by
    intro p b hb hform
    obtain ⟨a, ha, hb⟩ := List.mem_flatMap.1 hb
    obtain ⟨x, hx, rfl⟩ := List.mem_map.1 hb
    obtain ⟨j, l, hscans, rfl⟩ := exists_mem_probableAxioms_iff.1 ⟨a, ha, hx⟩
    obtain ⟨rfl, rfl, rfl⟩ := Cyk.form_injective hform
    cases hscans with
    | token hrhs htoken' =>
        obtain rfl := Option.some.inj (htoken.symm.trans htoken')
        exact ⟨by rw [← hrhs], rfl⟩
  have haxioms : schema.axiomItems = g.productions.flatMap fun p =>
      (Schema.probableAxioms tokens p).flatMap fun a => a.items.map fun x => (a.name, x) := by
    obtain ⟨-, -, hschema⟩ := bind_eq_ok.1 hschema
    obtain rfl := Except.ok.inj hschema
    exact List.flatMap_assoc
  obtain ⟨a, ha, hx⟩ := exists_mem_probableAxioms_iff.2
    ⟨i, 1, .token (congrArg Production.rhs hproduction) htoken, rfl⟩
  obtain ⟨b, hb, hfind⟩ :=
    exists_find?_flatMap (Q := fun b : String × Item W => b.2.form = Cyk.form name i 1) hq
      ⟨_, List.mem_flatMap.2 ⟨a, ha, List.mem_map_of_mem hx⟩, decide_eq_true
        (congrArg (Cyk.form · i 1) (congrArg Production.lhs hproduction))⟩ fun p _ hp b hb => by
          simpa using fun hform => (of_decide_eq_false hp) (hitems hb hform).1
  have hform : b.2.form = Cyk.form name i 1 := by simpa using List.find?_some hfind
  rw [Schema.firstAxiom?, firstItem?, haxioms, hfind, Option.map_some, (hitems hb hform).2]

/-- Of equal productions for a token, parsing with probabilities takes the first: rules conclude
only spans of at least two tokens. -/
lemma mem_items_of_first_lexical (hpolicy : settings.policy ≠ .accumulate)
    (hschema : Schema.weightedCyk g tokens = .ok schema)
    (h : finalState settings schema fuel = .ok t) (htoken : tokens[i]? = some token)
    (hq : g.productions.find? (fun p => p.production = ⟨name, [.terminal token]⟩) = some q) :
    WeightedRule.item name i 1 q.weight [.ofProduction q.production] ∈ t.chart.items := by
  have hnormal : g.unweighted.isChomskyNormal = true := by
    obtain ⟨_, hrequire, -⟩ := bind_eq_ok.1 hschema
    simpa [Schema.require] using hrequire
  have hjoins := joinsSpans_weightedCyk hnormal hschema
  have hproduction : q.production = ⟨name, [.terminal token]⟩ := by simpa using List.find?_some hq
  obtain ⟨a, ha, hx⟩ := (exists_mem_axioms_weightedCyk_iff hschema).2
    ⟨q, List.mem_of_find?_eq_some hq, i, 1, .token (congrArg Production.rhs hproduction) htoken,
      rfl⟩
  obtain ⟨b, hfirst, x, hx, hform, heq | ⟨-, rule, hrule, xs, f, hxs, hf, hmem⟩⟩ :=
    exists_item_of_axiom hpolicy h (Schema.mem_axiomItems.2 ⟨a, ha, rfl, hx⟩)
  · have hlexical := firstAxiom?_of_lexical hschema htoken hq
    rw [hproduction] at hfirst
    rw [show schema.firstAxiom? (Cyk.form name i 1) = some b from hfirst] at hlexical
    rw [← Option.some.inj hlexical, ← heq]
    exact hx
  · obtain ⟨l, m, hl, hm, -, hall⟩ := hjoins.exists_of_fire hrule
      (fun z hz => hjoins.isPlaced_of_yields (hxs z hz)) hf
    obtain ⟨⟨name', i', l', v, ts, rfl, -⟩, hextent⟩ := hall x hmem
    obtain ⟨-, -, rfl⟩ := Cyk.form_injective hform
    have hone : 1 = l + m := hextent
    omega

/-- The policy of a run does not cover axioms. Take any schema and any run that keeps only the best
derivations and ends with an outcome. The entry with the form of an axiom's item is the first such
item, in the order of the schema, or one that a rule has concluded and whose weight is preferred to
that. So it is not worse than any of these items that is not preferred to the first; and nothing
that is merged in the run is preferred to the entry with its form. In parsing with probabilities,
the entry of a name over a single token has the probability of the first production for both. -/
theorem run_firstAxiom (hpolicy : settings.policy ≠ .accumulate) {o : Outcome W}
    (h : run settings schema fuel = .ok o) :
    (∀ name y, (name, y) ∈ schema.axiomItems → ∃ a, schema.firstAxiom? y.form = some a ∧
      ∃ x ∈ o.chart.items, x.form = y.form ∧
        (x = a.2 ∨ settings.policy.prefers x.weight a.2.weight = true ∧ schema.Concludes x) ∧
          (settings.policy.prefers y.weight a.2.weight = false →
            settings.policy.prefers y.weight x.weight = false)) ∧
    (∀ (m : Moment W) (y : Item W) (d : Derivation) (rest : List (Task W)),
      Moment.Reaches settings schema (.start schema) m → m.tasks = .merge y d :: rest →
        ∃ x ∈ o.chart.items, x.form = y.form ∧
          settings.policy.prefers y.weight x.weight = false) ∧
    ∀ (g : Weighted.Grammar W) (tokens : List String),
      Algorithm.weightedCyk.compileTokens (.weighted g) tokens = .ok schema →
        ∀ i token name q, tokens[i]? = some token →
          g.productions.find? (fun p => p.production = ⟨name, [.terminal token]⟩) = some q →
            WeightedRule.item name i 1 q.weight [.ofProduction q.production] ∈ o.chart.items := by
  obtain ⟨t, ht, rfl⟩ := run_eq_ok h
  refine ⟨fun name y hy => ?_,
    fun m y d rest hm htasks => exists_settled_of_merge hpolicy ht hm htasks,
    fun g tokens hschema i token name q => mem_items_of_first_lexical hpolicy hschema ht⟩
  obtain ⟨a, hfirst, x, hx, hform, hbetter⟩ := exists_item_of_axiom hpolicy ht hy
  refine ⟨a, hfirst, x, hx, hform, hbetter, fun hworse => ?_⟩
  rcases hbetter with rfl | ⟨hprefers, -⟩
  · exact hworse
  · rw [← Bool.not_eq_true] at hworse ⊢
    exact fun hyx => hworse (Policy.prefers_trans hyx hprefers)

end Lexical

/-! ### A production that is listed twice -/

section Repeated

open GrammarFile (readWeightedGrammar readWeighted readSections readWeighted_of_readNumeral?)
open Weighted (Scans exists_mem_axioms_weightedCyk_iff joinsSpans_weightedCyk)

/-- A file in which the same production is listed with a probability and again with a higher one. -/
def repeatedFile : String :=
  "N = \x7b\"S\"\x7d\nT = \x7b\"a\"\x7d\nS = \"S\"\n" ++
    "P = \x7b\"0.25 : S -> a\", \"0.75 : S -> a\"\x7d\n"

/-- The grammar in that file. -/
def repeatedGrammar : Weighted.Grammar (Exact ℚ) :=
  ⟨["S"], ["a"], "S", [⟨⟨"S", [.terminal "a"]⟩, .number (1 / 4)⟩,
    ⟨⟨"S", [.terminal "a"]⟩, .number (3 / 4)⟩]⟩

lemma read_repeatedFile : readWeightedGrammar repeatedFile = .ok repeatedGrammar := by
  have hlow : readWeighted 4 ["S"] "0.25 : S -> a".toList =
      .ok ⟨⟨"S", [.terminal "a"]⟩, Exact.number (1 / 4 : ℚ)⟩ := by
    refine readWeighted_of_readNumeral? (u := "0.25".toList) (v := "S -> a".toList) (n := ⟨25, -2⟩)
      ?_ ?_ ?_ (by norm_num) (by norm_num) (by norm_num) ?_ <;> cbv
  have hhigh : readWeighted 4 ["S"] "0.75 : S -> a".toList =
      .ok ⟨⟨"S", [.terminal "a"]⟩, Exact.number (3 / 4 : ℚ)⟩ := by
    refine readWeighted_of_readNumeral? (u := "0.75".toList) (v := "S -> a".toList) (n := ⟨75, -2⟩)
      ?_ ?_ ?_ (by norm_num) (by norm_num) (by norm_num) ?_ <;> cbv
  have hsections : readSections ['N', 'T', 'S', 'P'] repeatedFile = .ok
      [('N', ⟨1, ["S".toList]⟩), ('T', ⟨2, ["a".toList]⟩), ('S', ⟨3, ["S".toList]⟩),
        ('P', ⟨4, ["0.25 : S -> a".toList, "0.75 : S -> a".toList]⟩)] := by decide +kernel
  rw [readWeightedGrammar, hsections]
  exact bind_eq_ok.2 ⟨_, rfl, bind_eq_ok.2 ⟨["S"], rfl, bind_eq_ok.2 ⟨["a"], rfl,
    bind_eq_ok.2 ⟨"S", rfl, bind_eq_ok.2 ⟨_, rfl, bind_eq_ok.2 ⟨repeatedGrammar.productions,
      by simp only [List.mapM_cons, hlow, hhigh, List.mapM_nil]; rfl, rfl⟩⟩⟩⟩⟩⟩

/-- Parsing one letter with that grammar comes to an end. -/
lemma exists_run_repeated : ∃ schema fuel o,
    Algorithm.weightedCyk.compileTokens (.weighted repeatedGrammar) ["a"] = .ok schema ∧
      run ⟨.higherWins, none⟩ schema fuel = .ok o := by
  have hnormal : repeatedGrammar.unweighted.isChomskyNormal = true := by decide
  obtain ⟨schema, hschema⟩ : ∃ schema, Schema.weightedCyk repeatedGrammar ["a"] = .ok schema :=
    ⟨_, by rw [Schema.weightedCyk, hnormal]; rfl⟩
  obtain ⟨fuel, o, hrun⟩ : ∃ fuel o, run ⟨.higherWins, none⟩ schema fuel = .ok o :=
    (joinsSpans_weightedCyk hnormal hschema).exists_run (by decide)
  exact ⟨schema, fuel, o, hschema, hrun⟩

/-- The letter has the lower probability at the end. -/
theorem exists_run_firstAxiom_repeated : ∃ schema fuel o,
    Algorithm.weightedCyk.compileTokens (.weighted repeatedGrammar) ["a"] = .ok schema ∧
      run ⟨.higherWins, none⟩ schema fuel = .ok o ∧
        WeightedRule.item "S" 0 1 (.number (1 / 4)) [.above "S" [.leaf "a"]] ∈ o.chart.items := by
  obtain ⟨schema, fuel, o, hschema, hrun⟩ := exists_run_repeated
  obtain ⟨-, -, hlexical⟩ := run_firstAxiom (by decide) hrun
  exact ⟨schema, fuel, o, hschema, hrun, hlexical _ _ hschema 0 "a" "S" _ rfl rfl⟩

/-- All items have weights, and yet the entry at the end has a lower one than the item of the second
axiom. -/
theorem exists_run_worse_than_axiom :
    readWeightedGrammar repeatedFile = .ok repeatedGrammar ∧ ∃ schema fuel o,
      Algorithm.weightedCyk.compileTokens (.weighted repeatedGrammar) ["a"] = .ok schema ∧
        run ⟨.higherWins, none⟩ schema fuel = .ok o ∧
          (∀ x, schema.Yields x → x.weight.isSome = true) ∧
            ∃ name y x, (name, y) ∈ schema.axiomItems ∧ x ∈ o.chart.items ∧ x.form = y.form ∧
              Policy.higherWins.prefers y.weight x.weight = true := by
  obtain ⟨schema, fuel, o, hschema, hrun⟩ := exists_run_repeated
  have hcompile : Schema.weightedCyk repeatedGrammar ["a"] = .ok schema := hschema
  have hjoins := joinsSpans_weightedCyk (by decide) hcompile
  obtain ⟨t, ht, rfl⟩ := run_eq_ok hrun
  refine ⟨read_repeatedFile, schema, fuel, _, hschema, hrun, fun x hx => ?_, ?_⟩
  · obtain ⟨_, _, _, v, _, rfl, -⟩ := hjoins.isPlaced_of_yields hx
    rfl
  · have hlow : WeightedRule.item "S" 0 1 (.number (1 / 4)) [.above "S" [.leaf "a"]] ∈
        t.chart.items :=
      mem_items_of_first_lexical (i := 0) (by decide) hcompile ht
        (q := ⟨⟨"S", [.terminal "a"]⟩, .number (1 / 4)⟩) rfl rfl
    obtain ⟨a, ha, hhigh⟩ := (exists_mem_axioms_weightedCyk_iff hcompile).2
      ⟨⟨⟨"S", [.terminal "a"]⟩, .number (3 / 4)⟩, by simp [repeatedGrammar], 0, 1,
        .token rfl rfl, rfl⟩
    refine ⟨a.name, _, _, Schema.mem_axiomItems.2 ⟨a, ha, rfl, hhigh⟩, hlow, rfl, ?_⟩
    have hlt : (1 / 4 : ℚ) < 3 / 4 := by norm_num
    simpa [WeightedRule.item, Item.weighted, Policy.prefers] using hlt

end Repeated

end Deduction

end DeductiveParsing
