/-
What happens to trees in a run that keeps all derivations.

* `Chart.Keeps`: all trees of an item are in the forest of its form, or stay out of that;
* `State.Accrues`: forests only grow;
* `keeps_of_finalState`: at the end, the trees of everything that a rule concludes are kept;
* `holds_of_finalState`: what axioms, rules and merging preserve holds of all items at the end.
-/
import DeductiveParsing.Proofs.Deduction.Exhaustion

namespace DeductiveParsing

variable {W : Type}

/-- Whether there is an item with the form of `y` whose forest has all trees of `y`, apart from
those that stay out of it. -/
def Chart.Keeps (c : Chart W) (y : Item W) : Prop :=
  ∃ x ∈ c.items, x.form = y.form ∧ ∀ t ∈ y.trees, Forest.excludes x.trees t = true

namespace Deduction

variable {settings : Settings} {s t u : State W} {x : Item W} {d : Derivation}

/-! ### Growing forests -/

/-- Whether the forests of a state are extended in another one. -/
def State.Accrues (s t : State W) : Prop :=
  ∀ i x, s.chart.item? i = some x →
    ∃ y, t.chart.item? i = some y ∧ y.form = x.form ∧ x.trees <+: y.trees

/-- What a chart keeps, larger ones keep. -/
lemma State.Accrues.keeps (h : s.Accrues t) {y : Item W} (hy : s.chart.Keeps y) :
    t.chart.Keeps y := by
  obtain ⟨x, ⟨i, hi⟩, hform, htrees⟩ := hy
  obtain ⟨z, hz, hzx, hle⟩ := h i x hi
  exact ⟨z, ⟨i, hz⟩, hzx.trans hform,
    fun t ht => Forest.excludes_mono hle.subset (htrees t ht)⟩

lemma MergeStep.accrues (hpolicy : settings.policy = .accumulate)
    (h : MergeStep settings s x d t) : s.Accrues t := by
  intro i y hy
  cases h with
  | insert hnew =>
      have hi : i < s.chart.size := Chart.lt_size_iff.2 ⟨y, hy⟩
      refine ⟨y, ?_, rfl, List.prefix_rfl⟩
      rw [State.requeue, Chart.item?_push, if_neg hi.ne, hy]
  | replace hne => exact absurd hpolicy hne
  | keep hne => exact absurd hpolicy hne
  | accumulate =>
      rw [State.item?_accumulate]
      split
      · exact ⟨{ y with trees := Forest.merge y.trees x.trees }, by rw [hy]; rfl, rfl,
          Forest.prefix_merge _ _⟩
      · exact ⟨y, hy, rfl, List.prefix_rfl⟩

/-- A merge keeps the trees of the consequence. -/
lemma MergeStep.keeps (hpolicy : settings.policy = .accumulate)
    (h : MergeStep settings s x d t) (hs : s.Consistent) : t.chart.Keeps x := by
  cases h with
  | insert hnew =>
      refine ⟨x, ⟨s.chart.size, ?_⟩, rfl, fun t ht => Forest.excludes_iff.2 (Or.inl ht)⟩
      rw [State.requeue, Chart.item?_push, if_pos rfl]
  | replace hne => exact absurd hpolicy hne
  | keep hne => exact absurd hpolicy hne
  | @accumulate i _ hold =>
      obtain ⟨y, hy, hyx⟩ := Option.map_eq_some_iff.1 (hs.indexed.position?_eq_some.1 hold)
      refine ⟨{ y with trees := Forest.merge y.trees x.trees }, ⟨i, ?_⟩, hyx,
        fun t ht => Forest.excludes_merge ht⟩
      rw [State.item?_accumulate, if_pos rfl, hy, Option.map_some]

/-- The items after a merge: those from before, and the consequence. If all derivations are kept, it is
new or brings its trees to the item of its form, and otherwise it is new or takes the place of that
item. -/
lemma MergeStep.mem_items (h : MergeStep settings s x d t) (hs : s.Consistent) {y : Item W}
    (hy : y ∈ t.chart.items) :
    y ∈ s.chart.items ∨
      (y = x ∧ (settings.policy = .accumulate → ∀ z ∈ s.chart.items, z.form ≠ x.form)) ∨
        (settings.policy = .accumulate ∧ ∃ z ∈ s.chart.items, z.form = x.form ∧
          y = { z with trees := Forest.merge z.trees x.trees }) := by
  obtain ⟨i, hi⟩ := hy
  cases h with
  | insert hnew =>
      rw [State.requeue, Chart.item?_push] at hi
      split at hi
      · refine Or.inr (Or.inl ⟨(Option.some.inj hi).symm, fun _ z hz hform => ?_⟩)
        obtain ⟨j, hj⟩ := hz
        exact hs.indexed.position?_eq_none.1 hnew j (by rw [Chart.form?, hj, ← hform]; rfl)
      · exact Or.inl ⟨i, hi⟩
  | keep => exact Or.inl ⟨i, hi⟩
  | @replace j hne _ =>
      rw [State.requeue, Chart.replace, Chart.item?, Chart.entries_modify] at hi
      split at hi
      · rw [Option.map_map, Option.map_eq_some_iff] at hi
        obtain ⟨e, -, rfl⟩ := hi
        exact Or.inr (Or.inl ⟨rfl, fun hpolicy => absurd hpolicy hne⟩)
      · exact Or.inl ⟨i, hi⟩
  | @accumulate j hpolicy hold =>
      obtain ⟨z, hz, hzx⟩ := Option.map_eq_some_iff.1 (hs.indexed.position?_eq_some.1 hold)
      rw [State.item?_accumulate] at hi
      split at hi
      · rename_i hij
        subst hij
        rw [hz, Option.map_some, Option.some.injEq] at hi
        exact Or.inr (Or.inr ⟨hpolicy, z, ⟨j, hz⟩, hzx, hi.symm⟩)
      · exact Or.inl ⟨i, hi⟩

variable [Weight W] {schema : Schema W}

/-! ### The end of a run -/

/-- Keeping the trees of consequences is a way of taking notice of these. -/
def keeping (hpolicy : settings.policy = .accumulate) : Upkeep W settings where
  Kept := Chart.Keeps
  of_merge hs h := (MergeStep.of_merge h).keeps hpolicy hs
  mono _ h := ((MergeStep.of_merge h).accrues hpolicy).keeps

/-- At the end of a run, a rule that fires on items of the chart with different forms, in the right
order, concludes nothing of which trees are not kept. -/
theorem keeps_of_finalState (hpolicy : settings.policy = .accumulate) {fuel : ℕ}
    (h : finalState settings schema fuel = .ok t) {rule : Rule W} (hrule : rule ∈ schema.rules)
    {xs : List (Item W)} (hlength : xs.length = rule.arity) (hxs : ∀ x ∈ xs, x ∈ t.chart.items)
    (hnodup : (xs.map Item.form).Nodup) :
    ∃ ys : List (Item W), ys.Perm xs ∧
      ∀ f, rule.fire? ys = some f → ∀ y ∈ f.items, t.chart.Keeps y :=
  (keeping hpolicy).kept_of_finalState h hrule hlength hxs hnodup

/-- At the end of a run, what a rule with one premise concludes from an item is kept. -/
lemma keeps_of_fire (hpolicy : settings.policy = .accumulate) {fuel : ℕ}
    (h : finalState settings schema fuel = .ok t) {rule : Rule W} (hrule : rule ∈ schema.rules)
    {x : Item W} (hx : x ∈ t.chart.items) {f : Firing W} (hf : rule.fire? [x] = some f)
    {y : Item W} (hy : y ∈ f.items) : t.chart.Keeps y := by
  have hmem : ∀ y ∈ [x], y ∈ t.chart.items := by simpa using hx
  obtain ⟨ys, hperm, hkeeps⟩ := keeps_of_finalState hpolicy h hrule
    (Rule.fire?_eq_some.1 hf).1 hmem (List.nodup_singleton _)
  obtain rfl := List.perm_singleton.1 hperm
  exact hkeeps f hf y hy

omit [Weight W] in
/-- The goals of an outcome are the positions of the items with the forms of goals. -/
lemma mem_goals_ofChart {c : Chart W} (hc : c.Indexed) {goals : List (Item W)} {i : ℕ} :
    i ∈ (Outcome.ofChart goals c).goals ↔
      ∃ x, c.item? i = some x ∧ ∃ y ∈ goals, y.form = x.form := by
  rw [Outcome.ofChart, Choice.mem_distinct, List.mem_filterMap]
  constructor
  · rintro ⟨y, hy, hposition⟩
    obtain ⟨x, hx, hform⟩ := Option.map_eq_some_iff.1 (hc.position?_eq_some.1 hposition)
    exact ⟨x, hx, y, hy, hform.symm⟩
  · rintro ⟨x, hx, y, hy, hform⟩
    exact ⟨y, hy, hc.position?_eq_some.2 (by rw [Chart.form?, hx, hform]; rfl)⟩

omit [Weight W] in
/-- The trees of an outcome are those of the items with the forms of goals. -/
lemma mem_trees_ofChart {c : Chart W} (hc : c.Indexed) {goals : List (Item W)} {t : Tree} :
    t ∈ (Outcome.ofChart goals c).trees ↔
      ∃ x ∈ c.items, (∃ y ∈ goals, y.form = x.form) ∧ t ∈ x.trees := by
  rw [Outcome.ofChart, Choice.mem_distinct, List.mem_flatMap]
  constructor
  · rintro ⟨x, hx, ht⟩
    obtain ⟨i, hi, hx⟩ := List.mem_filterMap.1 hx
    obtain ⟨y, hy, hgoal⟩ := (mem_goals_ofChart hc).1 hi
    obtain rfl := Option.some.inj (hx.symm.trans hy)
    exact ⟨x, ⟨i, hx⟩, hgoal, ht⟩
  · rintro ⟨x, ⟨i, hx⟩, hgoal, ht⟩
    exact ⟨x, List.mem_filterMap.2 ⟨i, (mem_goals_ofChart hc).2 ⟨x, hx, hgoal⟩, hx⟩, ht⟩

/-! ### Properties of all items -/

end Deduction

/-- Whether axioms have a property of items, and rules and the merging of trees preserve it. -/
structure Schema.Preserves [Weight W] (schema : Schema W) (Holds : Item W → Prop) : Prop where
  of_axiom : ∀ a ∈ schema.axioms, ∀ x ∈ a.items, Holds x
  of_fire : ∀ rule ∈ schema.rules, ∀ (xs : List (Item W)) (f : Firing W), (∀ x ∈ xs, Holds x) →
    rule.fire? xs = some f → ∀ y ∈ f.items, Holds y
  of_merge : ∀ x y, Holds x → Holds y → x.form = y.form →
    Holds { x with trees := Forest.merge x.trees y.trees }

namespace Deduction

variable [Weight W] {settings : Settings} {schema : Schema W} {s t : State W} {x : Item W}
  {d : Derivation} {Holds : Item W → Prop}

/-- A consistent state all of whose items have a property. -/
structure State.All (Holds : Item W → Prop) (s : State W) : Prop where
  consistent : s.Consistent
  holds : ∀ x ∈ s.chart.items, Holds x

lemma State.All.of_mergeStep (hHolds : schema.Preserves Holds) (hs : s.All Holds) (hx : Holds x)
    (h : MergeStep settings s x d t) : t.All Holds := by
  refine ⟨h.consistent hs.consistent, fun y hy => ?_⟩
  rcases h.mem_items hs.consistent hy with hy | ⟨rfl, -⟩ | ⟨-, z, hz, hzx, rfl⟩
  · exact hs.holds y hy
  · exact hx
  · exact hHolds.of_merge z x (hs.holds z hz) hx hzx

lemma State.All.of_applyAt (hHolds : schema.Preserves Holds) (hs : s.All Holds) {rule : Rule W}
    (hrule : rule ∈ schema.rules) {positions : List ℕ}
    (h : s.applyAt settings rule positions = .ok t) : t.All Holds := by
  rcases applyAt_cases h with ⟨-, rfl⟩ | ⟨xs, f, hxs, hf, hfold⟩
  · exact hs
  have hall : ∀ x ∈ xs, Holds x :=
    fun x hx => hs.holds x (Chart.mem_items_of_map (mapM_eq_some_iff.1 hxs) x hx)
  exact foldlM_induction hfold hs fun u y v hy hu hv =>
    hu.of_mergeStep hHolds (hHolds.of_fire rule hrule xs f hall hf y hy)
      (MergeStep.of_merge hv)

lemma State.All.of_expand (hHolds : schema.Preserves Holds) (hs : s.All Holds) {first : ℕ}
    (h : State.expand settings schema first s = .ok t) : t.All Holds := by
  refine foldlM_induction h hs fun u rule v hrule hu hv => ?_
  rw [State.applyRule] at hv
  split at hv
  · exact Except.ok.inj hv ▸ hu
  · exact foldlM_induction hv hu fun _ _ _ _ hu' => hu'.of_applyAt hHolds hrule

/-- What axioms have and what rules and the merging of trees preserve holds of all items of the
chart at the end of a run. -/
theorem holds_of_finalState (hHolds : schema.Preserves Holds) {fuel : ℕ}
    (h : finalState settings schema fuel = .ok t) : ∀ x ∈ t.chart.items, Holds x := by
  obtain ⟨s, hseed, hdrain⟩ := finalState_eq_ok h
  have hempty : (State.empty : State W).All Holds := by
    refine ⟨State.consistent_empty, ?_⟩
    rintro x ⟨i, hi⟩
    simp [State.empty] at hi
  have hstart : s.All Holds := by
    refine seed_induction (P := State.All Holds) hseed hempty fun s name x t hx hs ht => ?_
    rcases MergeStep.of_seedItem ht with ⟨-, hstep⟩ | ⟨-, rfl⟩
    · obtain ⟨a, ha, -, hmem⟩ := Schema.mem_axiomItems.1 hx
      exact hs.of_mergeStep hHolds (hHolds.of_axiom a ha x hmem) hstep
    · exact hs
  refine (drain_induction (P := State.All Holds) hdrain hstart ?_).1.holds
  intro s first agenda t hs hnext ht
  have hpop : (⟨s.chart, agenda⟩ : State W).All Holds := ⟨hs.consistent.pop hnext, hs.holds⟩
  exact hpop.of_expand hHolds ht

end Deduction

end DeductiveParsing
