/-
Runs that keep only the best derivations end in a fixpoint.

* `Task.improves_of_perform`, `Moment.Reaches.improves`: in each step, and so from any moment of a
  run to a later one, items are only exchanged for strictly preferred ones;
* `prefers_eq_false_of_fire`: with exact weights, nothing that a rule concludes from items of the
  chart at the end is preferred to what the chart has;
* `exists_settled_of_fire`: and it has something with that form;
* `run_isFixpoint`: both for a run, of whatever schema.
-/
import DeductiveParsing.Proofs.Deduction.Records
import DeductiveParsing.Proofs.Inference.Weights
import DeductiveParsing.Proofs.Weighted.Viterbi

namespace DeductiveParsing

/-- Without a weight nothing is preferred. -/
lemma Policy.prefers_none {W : Type} [Weight W] (policy : Policy) (w : Option W) :
    policy.prefers none w = false := by cases policy <;> rfl

namespace Deduction

open GrammarFile (doubtfulGrammar)
open Weighted (exists_mem_axioms_weightedCyk_iff joinsSpans_weightedCyk mem_rules_weightedCyk_iff)

/-! ### Items are only improved -/

section Improves

variable {W : Type} [Weight W] {settings : Settings} {schema : Schema W} {s t : State W}
  {m m' : Moment W} {x : Item W}

/-- A new item leaves the others as they are. -/
lemma improves_of_seedItem {policy : Policy} {name : String}
    (h : seedItem settings name s x = .ok t) : s.chart.Improves policy t.chart := by
  rcases MergeStep.of_seedItem h with ⟨hnew, -⟩ | ⟨-, rfl⟩
  · simp only [seedItem, hnew] at h
    rw [State.insert_eq_ok h]
    intro i y hy
    have hi := Chart.lt_size_iff.2 ⟨y, hy⟩
    exact ⟨y, by rw [(s.puts_insert x _).item?_eq, if_neg hi.ne, hy], .refl policy y⟩
  · exact .refl policy _

/-- Performing a task leaves items as they are or puts preferred ones in their place. -/
lemma Task.improves_of_perform (hpolicy : settings.policy ≠ .accumulate) (hs : s.Consistent)
    {task : Task W} (h : task.perform settings schema s = .ok m) :
    s.chart.Improves settings.policy m.state.chart := by
  cases task with
  | seed name x =>
      obtain ⟨t, ht, rfl⟩ := exists_of_map_eq_ok h
      exact improves_of_seedItem ht
  | merge x d =>
      obtain ⟨t, ht, rfl⟩ := exists_of_map_eq_ok h
      exact State.improves_of_merge hpolicy hs ht
  | drain | tryRule | tryAt =>
      -- the chart stays what it is
      rw [Task.perform] at h
      split at h <;> exact Except.ok.inj h ▸ .refl _ _

variable [OrderedWeight W]

/-- In the rest of a run, items are only exchanged for strictly preferred ones. -/
theorem Moment.Reaches.improves (hpolicy : settings.policy ≠ .accumulate)
    (h : Moment.Reaches settings schema m m') (hm : m.state.Consistent) :
    m.state.chart.Improves settings.policy m'.state.chart := by
  induction h with
  | refl => exact .refl _ _
  | tail hreaches hstep ih =>
      obtain ⟨hconsistent, -⟩ := Moment.Reaches.form? hreaches hm
      cases hstep with
      | perform hperform =>
          have himproves := Task.improves_of_perform hpolicy hconsistent hperform
          exact ih.trans himproves

end Improves

/-! ### Nothing is left to be improved -/

section Exact

variable {K : Type} [Numbers K] {settings : Settings} {schema : Schema (Exact K)}
  {t : State (Exact K)} {fuel : ℕ} {rule : Rule (Exact K)} {positions : List ℕ}
  {xs : List (Item (Exact K))} {f : Firing (Exact K)} {y : Item (Exact K)}

/-- What an unambiguous rule concludes at the end from items at different positions has an entry
with its form, to which it is not preferred. -/
lemma exists_settled_of_fire (hpolicy : settings.policy ≠ .accumulate)
    (h : finalState settings schema fuel = .ok t) (hrule : rule ∈ schema.rules)
    (hplain : rule.IsUnambiguous) (hdistinct : positions.Nodup)
    (hxs : positions.mapM t.chart.item? = some xs) (hf : rule.fire? xs = some f)
    (hy : y ∈ f.items) :
    ∃ x ∈ t.chart.items, x.form = y.form ∧ settings.policy.prefers y.weight x.weight = false := by
  rw [mapM_eq_some_iff] at hxs
  obtain ⟨ys, hperm, hsettled⟩ := settles_of_finalState hpolicy h hrule
    (Rule.fire?_eq_some.1 hf).1 (Chart.mem_items_of_map hxs)
    ((consistent_of_finalState h).1.indexed.nodup_forms hdistinct hxs)
  -- the run has tried the items in some order, in which the rule concludes the same
  obtain ⟨g, hg, hcores⟩ := Rule.exists_fire?_perm hplain hperm hf
  obtain ⟨z, hz, hcore⟩ := List.mem_map.1 (hcores ▸ List.mem_map_of_mem hy)
  obtain ⟨hform, hweight⟩ := Prod.mk.inj hcore
  obtain ⟨x, hx, hxform, hworse⟩ := hsettled g hg z hz
  exact ⟨x, hx, hxform.trans hform, hweight ▸ hworse⟩

/-- Nothing that a rule concludes at the end from items at different positions is preferred to the
entry with its form. -/
lemma prefers_eq_false_of_fire (hpolicy : settings.policy ≠ .accumulate)
    (h : finalState settings schema fuel = .ok t) (hrule : rule ∈ schema.rules)
    (hdistinct : positions.Nodup) (hxs : positions.mapM t.chart.item? = some xs)
    (hf : rule.fire? xs = some f) (hy : y ∈ f.items) {x : Item (Exact K)}
    (hx : x ∈ t.chart.items) (hform : x.form = y.form) :
    settings.policy.prefers y.weight x.weight = false := by
  by_cases hweight : rule.IsUnweighted
  · rw [Rule.isWeightless_fire? hweight xs f hf y hy]
    exact Policy.prefers_none _ _
  · -- the rules of parsing with weights read no questions
    have hplain : rule.IsUnambiguous := by
      cases rule with
      | weighted r => trivial
      | _ => exact absurd trivial hweight
    obtain ⟨z, hz, hzform, hworse⟩ :=
      exists_settled_of_fire hpolicy h hrule hplain hdistinct hxs hf hy
    obtain rfl := (consistent_of_finalState h).1.indexed.eq_of_items hz hx (hzform.trans hform.symm)
    exact hworse

/-- Runs that keep only the best derivations end in a fixpoint. For every schema with exact weights,
whichever weights are better, and whatever the limit: if a run ends with an outcome, all its moments
lead to the chart there, and from one moment to a later one an item is only exchanged for one with
the same form and a strictly preferred weight. Take any rule of the schema and any choice of
different positions of that chart: nothing that the rule concludes from the items there is preferred
to the entry with its form, and there is one, unless the rule takes questions for answers. So every
improvement has reached all its consequences. -/
theorem run_isFixpoint (hpolicy : settings.policy ≠ .accumulate) {o : Outcome (Exact K)}
    (h : run settings schema fuel = .ok o) :
    (∃ t, t.chart = o.chart ∧ ∀ m, Moment.Reaches settings schema (.start schema) m →
      Moment.Reaches settings schema m ⟨[], t⟩) ∧
    (∀ m m', Moment.Reaches settings schema (.start schema) m →
      Moment.Reaches settings schema m m' →
        m.state.chart.Improves settings.policy m'.state.chart) ∧
    ∀ rule ∈ schema.rules, ∀ (positions : List ℕ) (xs : List (Item (Exact K)))
      (f : Firing (Exact K)), positions.Nodup → positions.mapM o.chart.item? = some xs →
        rule.fire? xs = some f → ∀ y ∈ f.items,
        (∀ x ∈ o.chart.items, x.form = y.form →
          settings.policy.prefers y.weight x.weight = false) ∧
        (rule.IsUnambiguous → ∃ x ∈ o.chart.items, x.form = y.form) := by
  obtain ⟨t, ht, rfl⟩ := run_eq_ok h
  refine ⟨⟨t, rfl, fun m => reaches_finalState_of_reaches ht⟩, fun m m' hm hm' => ?_,
    fun rule hrule positions xs f hdistinct hxs hf y hy => ⟨fun x hx hform => ?_, fun hplain => ?_⟩⟩
  · have hconsistent := ((invariant_records settings schema).of_reaches hm).1.1
    exact hm'.improves hpolicy hconsistent
  · exact prefers_eq_false_of_fire hpolicy ht hrule hdistinct hxs hf hy hx hform
  · obtain ⟨x, hx, hform, -⟩ := exists_settled_of_fire hpolicy ht hrule hplain hdistinct hxs hf hy
    exact ⟨x, hx, hform⟩

/-- In the chart for two letters, the whole input is not less probable than what the second rule for
the start symbol makes of the two parts that are there. -/
theorem exists_run_isFixpoint_doubtful :
    ∃ (schema : Schema (Exact ℚ)) (fuel : ℕ) (o : Outcome (Exact ℚ)),
      Algorithm.weightedCyk.compileTokens (.weighted doubtfulGrammar) ["a", "a"] = .ok schema ∧
        run ⟨.higherWins, none⟩ schema fuel = .ok o ∧ ∃ u v w ts us vs,
          ⟨Cyk.form "B" 0 1, some u, ts⟩ ∈ o.chart.items ∧
            ⟨Cyk.form "A" 1 1, some v, us⟩ ∈ o.chart.items ∧
              ⟨Cyk.form "S" 0 2, some w, vs⟩ ∈ o.chart.items ∧
                Weight.less w (Weight.mul (Weight.mul (.number (1 / 2)) u) v) = false := by
  have hnormal : doubtfulGrammar.unweighted.isChomskyNormal = true := by decide
  obtain ⟨schema, hschema⟩ : ∃ schema, Schema.weightedCyk doubtfulGrammar ["a", "a"] = .ok schema :=
    ⟨_, by rw [Schema.weightedCyk, hnormal]; rfl⟩
  have hjoins := joinsSpans_weightedCyk hnormal hschema
  obtain ⟨fuel, o, hrun⟩ : ∃ fuel o, run ⟨.higherWins, none⟩ schema fuel = .ok o :=
    hjoins.exists_run (by decide)
  obtain ⟨-, -, hsettled⟩ := run_isFixpoint (by decide) hrun
  obtain ⟨t, ht, rfl⟩ := run_eq_ok hrun
  -- the two parts are axioms
  have hpart : ∀ {p : Weighted.Production (Exact ℚ)} {i : ℕ}, p ∈ doubtfulGrammar.productions →
      p.production.rhs = [.terminal "a"] → ["a", "a"][i]? = some "a" →
        ∃ v ts, ⟨Cyk.form p.production.lhs i 1, some v, ts⟩ ∈ t.chart.items := by
    intro p i hp hrhs htoken
    obtain ⟨a, ha, hx⟩ := (exists_mem_axioms_weightedCyk_iff hschema).2
      ⟨p, hp, i, 1, .token hrhs htoken, rfl⟩
    exact hjoins.exists_item_of_form ht (mem_forms_of_mem_axioms ht ha hx)
  obtain ⟨u, ts, hB⟩ := hpart (p := ⟨⟨"B", [.terminal "a"]⟩, .number 1⟩) (i := 0)
    (by simp [doubtfulGrammar]) rfl rfl
  obtain ⟨v, us, hA⟩ := hpart (p := ⟨⟨"A", [.terminal "a"]⟩, .number (1 / 5)⟩) (i := 1)
    (by simp [doubtfulGrammar]) rfl rfl
  -- the rule joins them
  obtain ⟨p, hp⟩ : ∃ p : Weighted.Production (Exact ℚ),
      p = ⟨⟨"S", [.nonterminal "B", .nonterminal "A"]⟩, .number (1 / 2)⟩ := ⟨_, rfl⟩
  have hrule : Rule.weighted (.product p) ∈ schema.rules := (mem_rules_weightedCyk_iff hschema).2
    ⟨p, by simp [hp, doubtfulGrammar], by rw [hp]; rfl, rfl⟩
  have hjoin := WeightedRule.fire?_of_join (r := .product p)
    (WeightedRule.joinProduct_eq_some_iff.2 ⟨rfl, by rw [hp]; rfl, rfl⟩ :
      WeightedRule.joinProduct p ⟨Cyk.form "B" 0 1, some u, ts⟩ ⟨Cyk.form "A" 1 1, some v, us⟩ = _)
  have hparts : ∀ z ∈ [⟨Cyk.form "B" 0 1, some u, ts⟩, ⟨Cyk.form "A" 1 1, some v, us⟩],
      z ∈ t.chart.items := by simp [hA, hB]
  obtain ⟨positions, hdistinct, hpositions⟩ :=
    Chart.exists_positions_of_mem_items hparts (by simp [Cyk.form])
  obtain ⟨hworse, hexists⟩ := hsettled _ hrule positions _ _ hdistinct
    (mapM_eq_some_iff.2 hpositions) hjoin _ List.mem_cons_self
  obtain ⟨x, hx, hform⟩ := hexists trivial
  obtain ⟨w, vs, hS⟩ := hjoins.exists_item_of_form ht (Chart.mem_forms_iff.2 ⟨x, hx, hform⟩)
  have hprefers := hworse _ hS rfl
  subst hp
  exact ⟨schema, fuel, _, hschema, hrun, u, v, w, ts, us, vs, hB, hA, hS, hprefers⟩

end Exact

end Deduction

end DeductiveParsing
