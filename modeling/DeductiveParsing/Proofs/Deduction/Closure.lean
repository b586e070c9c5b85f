/-
What is in the chart at the end of a run.

* `Schema.IsClosed`: sets of forms that contain the axioms and what rules conclude from items in
  them;
* `isLeast_forms_of_finalState`: the forms in the final chart are the least such set;
* `run_isLeast_forms`: the same for the outcome of a run.
-/
import DeductiveParsing.Proofs.Deduction.Termination

namespace DeductiveParsing

variable {W : Type}

/-! ### Closed sets of forms -/

/-- The forms of the items in a chart. -/
def Chart.forms (c : Chart W) : Set Form := {form | ∃ e ∈ c.entries, e.item.form = form}

lemma Chart.mem_forms {c : Chart W} {form : Form} :
    form ∈ c.forms ↔ ∃ i, c.form? i = some form := by
  constructor
  · rintro ⟨e, he, rfl⟩
    obtain ⟨i, hi⟩ := Array.mem_iff_getElem?.1 he
    exact ⟨i, by simp [form?, item?, hi]⟩
  · rintro ⟨i, hi⟩
    obtain ⟨x, hx, hform⟩ := Option.map_eq_some_iff.1 hi
    obtain ⟨e, he, rfl⟩ := item?_eq_some_iff.1 hx
    exact ⟨e, Array.mem_iff_getElem?.2 ⟨i, he⟩, hform⟩

/-- The forms in a chart are those of its items. -/
lemma Chart.mem_forms_iff {c : Chart W} {form : Form} :
    form ∈ c.forms ↔ ∃ x ∈ c.items, x.form = form := by
  rw [mem_forms]
  constructor
  · rintro ⟨i, hi⟩
    obtain ⟨x, hx, hform⟩ := Option.map_eq_some_iff.1 hi
    exact ⟨x, ⟨i, hx⟩, hform⟩
  · rintro ⟨x, ⟨i, hx⟩, rfl⟩
    exact ⟨i, by rw [form?, hx, Option.map_some]⟩

/-- A set of forms is closed under a schema if it contains the forms of all items that axioms give,
and of all items that a rule concludes from items with different forms in the set. The items may
carry any weights and trees, and stand in any order. -/
structure Schema.IsClosed [Weight W] (schema : Schema W) (F : Set Form) : Prop where
  axioms_mem : ∀ a ∈ schema.axioms, ∀ x ∈ a.items, x.form ∈ F
  rules_mem : ∀ rule ∈ schema.rules, ∀ (xs : List (Item W)) (f : Firing W),
    (∀ x ∈ xs, x.form ∈ F) → (xs.map Item.form).Nodup → rule.fire? xs = some f →
      ∀ y ∈ f.items, y.form ∈ F

/-- Items with different forms of a chart stand for different positions of it. -/
lemma Chart.exists_positions {c : Chart W} {xs : List (Item W)} (h : ∀ x ∈ xs, x.form ∈ c.forms)
    (hnodup : (xs.map Item.form).Nodup) :
    ∃ positions : List ℕ, positions.Nodup ∧
      positions.map c.form? = (xs.map Item.form).map some := by
  have hpositions : ∃ positions : List ℕ,
      positions.map c.form? = (xs.map Item.form).map some := by
    clear hnodup
    induction xs with
    | nil => exact ⟨[], rfl⟩
    | cons x xs ih =>
        obtain ⟨i, hi⟩ := mem_forms.1 (h x List.mem_cons_self)
        obtain ⟨positions, hrest⟩ := ih fun y hy => h y (List.mem_cons_of_mem _ hy)
        exact ⟨i :: positions, by simp [hi, hrest]⟩
  obtain ⟨positions, hmap⟩ := hpositions
  refine ⟨positions, List.Nodup.of_map c.form? ?_, hmap⟩
  rw [hmap]
  exact hnodup.map (Option.some_injective _)

/-- Leaving out goals that are listed twice changes nothing about which goals are in a set. -/
lemma Schema.exists_goal_make {axioms : List (Axiom W)} {rules : List (Rule W)}
    {goals : List (Item W)} {F : Set Form} :
    (∃ x ∈ (make axioms rules goals).goals, x.form ∈ F) ↔ ∃ x ∈ goals, x.form ∈ F := by
  constructor
  · rintro ⟨x, hx, hform⟩
    exact ⟨x, Choice.mem_of_mem_distinctBy hx, hform⟩
  · rintro ⟨x, hx, hform⟩
    obtain ⟨y, hy, hyx⟩ : ∃ y ∈ Item.distinctForms goals, y.form = x.form :=
      Choice.exists_mem_distinctBy hx
    exact ⟨y, hy, hyx ▸ hform⟩

/-- A closed set contains what a rule concludes from items that carry nothing. -/
lemma Schema.IsClosed.mem_of_fire [Weight W] {schema : Schema W} {F : Set Form}
    (hF : schema.IsClosed F) {rule : Rule W} (hrule : rule ∈ schema.rules) (forms : List Form)
    {f : Firing W} {result : Form} (hforms : ∀ form ∈ forms, form ∈ F) (hnodup : forms.Nodup)
    (hf : rule.fire? (forms.map Item.ofForm) = some f)
    (hresult : result ∈ f.items.map Item.form) : result ∈ F := by
  have hmap : (forms.map (Item.ofForm (W := W))).map Item.form = forms := by
    rw [List.map_map]
    exact List.map_id forms
  obtain ⟨y, hy, rfl⟩ := List.mem_map.1 hresult
  refine hF.rules_mem rule hrule _ f (fun x hx => ?_) (hmap.symm ▸ hnodup) hf y hy
  obtain ⟨form, hform, rfl⟩ := List.mem_map.1 hx
  exact hforms form hform

namespace Deduction

/-- Something is derivable if the form of a goal is in the chart. -/
lemma isDerivable_ofChart_iff {c : Chart W} (hc : c.Indexed) (goals : List (Item W)) :
    (Outcome.ofChart goals c).isDerivable = true ↔ ∃ x ∈ goals, x.form ∈ c.forms := by
  have hposition : ∀ x : Item W, (∃ i, c.position? x = some i) ↔ x.form ∈ c.forms := fun x => by
    rw [Chart.mem_forms]
    exact exists_congr fun i => hc.position?_eq_some
  have hempty : (Outcome.ofChart goals c).isDerivable = true ↔
      goals.filterMap c.position? ≠ [] := by
    rw [Outcome.isDerivable, Outcome.ofChart, Choice.distinct]
    cases goals.filterMap c.position? <;> simp [Choice.distinctBy]
  rw [hempty, List.ne_nil_iff_exists_cons]
  constructor
  · rintro ⟨i, rest, hi⟩
    have hmem : i ∈ goals.filterMap c.position? := hi ▸ List.mem_cons_self
    obtain ⟨x, hx, hxi⟩ := List.mem_filterMap.1 hmem
    exact ⟨x, hx, (hposition x).1 ⟨i, hxi⟩⟩
  · rintro ⟨x, hx, hform⟩
    obtain ⟨i, hi⟩ := (hposition x).2 hform
    exact List.exists_cons_of_ne_nil (List.ne_nil_of_mem (List.mem_filterMap.2 ⟨x, hx, hi⟩))

variable [Weight W] {settings : Settings} {schema : Schema W} {s t : State W} {x : Item W}
  {d : Derivation}

/-- The account of the forms that are in the chart. -/
def Account.listed (W : Type) [Weight W] (settings : Settings) : Account W settings where
  Covers c _ form := ∃ i, c.form? i = some form
  of_merge hs h := (MergeStep.of_merge h).exists_form hs
  mono hs h := fun ⟨i, hi⟩ => ⟨i, ((MergeStep.of_merge h).evolves hs).form?_eq_some hi⟩

/-- What is justified by a chart whose forms lie in a closed set has its form there. -/
lemma mem_of_justifies {F : Set Form} (hF : schema.IsClosed F) {c : Chart W} (hc : c.Indexed)
    (hforms : c.forms ⊆ F) {form : Form} (h : c.Justifies schema d form) : form ∈ F := by
  obtain ⟨hsorted, rule, hrule, xs, f, hxs, hf, -, hform⟩ := h
  have hpositions := mapM_eq_some_iff.1 hxs
  have hmem : ∀ x ∈ xs, x.form ∈ F := fun x hx =>
    hforms (Chart.mem_forms_iff.2 ⟨x, Chart.mem_items_of_map hpositions x hx, rfl⟩)
  obtain ⟨y, hy, rfl⟩ := List.mem_map.1 hform
  exact hF.rules_mem rule hrule xs f hmem (hc.nodup_forms hsorted.nodup hpositions) hf y hy

/-- All forms in the chart at the end of a run lie in every closed set. -/
lemma forms_subset_of_finalState (hstable : schema.IsStable settings.policy) {fuel : ℕ}
    (h : finalState settings schema fuel = .ok t) {F : Set Form} (hF : schema.IsClosed F) :
    t.chart.forms ⊆ F := by
  refine chart_induction (P := fun c => c.forms ⊆ F) hstable (fun s hs => ?_)
    (fun s x d t hs hforms hd ht form hform => ?_) h
  · refine (seed_induction (P := fun s => s.Consistent ∧ s.chart.forms ⊆ F) hs
      ⟨State.consistent_empty, ?_⟩ fun s name x t hx hs ht => ?_).2
    · rintro form ⟨e, he, -⟩
      simp [State.empty, Chart.empty] at he
    · rcases MergeStep.of_seedItem ht with ⟨-, hstep⟩ | ⟨-, rfl⟩
      · refine ⟨hstep.consistent hs.1, fun form hform => ?_⟩
        obtain ⟨i, hi⟩ := Chart.mem_forms.1 hform
        rcases hstep.form?_cases hs.1 hi with hi | rfl
        · exact hs.2 (Chart.mem_forms.2 ⟨i, hi⟩)
        · obtain ⟨a, ha, -, hmem⟩ := Schema.mem_axiomItems.1 hx
          exact hF.axioms_mem a ha x hmem
      · exact hs
  · obtain ⟨i, hi⟩ := Chart.mem_forms.1 hform
    rcases (MergeStep.of_merge ht).form?_cases hs hi with hi | rfl
    · exact hforms (Chart.mem_forms.2 ⟨i, hi⟩)
    · exact mem_of_justifies hF hs.indexed hforms hd

/-- The forms of the axioms are in the chart at the end of a run. -/
lemma mem_forms_of_mem_axioms {fuel : ℕ} (h : finalState settings schema fuel = .ok t) {a : Axiom W}
    (ha : a ∈ schema.axioms) (hx : x ∈ a.items) : x.form ∈ t.chart.forms := by
  obtain ⟨s, hseed, hdrain⟩ := finalState_eq_ok h
  have hlisted : (Account.listed W settings).Covers s.chart default x.form :=
    exists_form_of_seed hseed (Schema.mem_axiomItems.2 ⟨a, ha, rfl, hx⟩)
  exact Chart.mem_forms.2 (Account.covers_of_drain (consistent_of_seed hseed).1 hdrain hlisted)

/-- The forms in the chart at the end of a run are closed. -/
lemma isClosed_forms_of_finalState
    (hrules : ∀ rule ∈ schema.rules, rule.IsUnweighted ∧ rule.IsUnambiguous) {fuel : ℕ}
    (h : finalState settings schema fuel = .ok t) : schema.IsClosed t.chart.forms := by
  have hstable : schema.IsStable settings.policy :=
    fun rule hrule => ⟨(hrules rule hrule).2, Or.inr (hrules rule hrule).1⟩
  refine ⟨fun a ha x => mem_forms_of_mem_axioms h ha, fun rule hrule xs f hxs hnodup hf y hy => ?_⟩
  -- the rule fires on the items of the chart with these forms, put in order
  obtain ⟨positions, hpositions, hmap⟩ := Chart.exists_positions hxs hnodup
  have hperm : (positions.mergeSort).Perm positions := List.mergeSort_perm positions _
  have hlt : ∀ i ∈ positions.mergeSort, i < t.chart.size := by
    intro i hi
    have hmem : t.chart.form? i ∈ (xs.map Item.form).map some :=
      hmap ▸ List.mem_map_of_mem (hperm.subset hi)
    obtain ⟨form, -, hform⟩ := List.mem_map.1 hmem
    exact Chart.lt_size_of_form? hform.symm
  obtain ⟨ys, hys⟩ := Chart.exists_items hlt
  have hforms : (xs.map Item.form).Perm (ys.map Item.form) := by
    rw [← List.map_perm_map_iff (Option.some_injective _), ← hmap, ← Chart.map_form? hys]
    exact hperm.symm.map _
  have hshape := Rule.map_shape_of_forms (hrules rule hrule).1 (hrules rule hrule).2 hforms
  rw [hf] at hshape
  obtain ⟨g, hg, hgf⟩ := Option.map_eq_some_iff.1 hshape.symm
  obtain ⟨-, hgforms⟩ := Prod.mk.inj hgf
  have hd : t.chart.Justifies schema ⟨g.name, positions.mergeSort⟩ y.form :=
    ⟨pairwise_lt_mergeSort hpositions, rule, hrule, ys, g, mapM_eq_some_iff.2 hys, hg, rfl,
      hgforms ▸ List.mem_map_of_mem hy⟩
  exact Chart.mem_forms.2 (covers_of_finalState (.listed W settings) hstable h hd)

/-- The forms in the chart at the end of a run are the least closed set of forms. -/
lemma isLeast_forms_of_finalState
    (hrules : ∀ rule ∈ schema.rules, rule.IsUnweighted ∧ rule.IsUnambiguous) {fuel : ℕ}
    (h : finalState settings schema fuel = .ok t) :
    IsLeast {F | schema.IsClosed F} t.chart.forms :=
  ⟨isClosed_forms_of_finalState hrules h, fun _ hF => forms_subset_of_finalState
    (fun rule hrule => ⟨(hrules rule hrule).2, Or.inr (hrules rule hrule).1⟩) h hF⟩

/-- When a run has ended, something is derivable if the form of a goal is in the least closed set,
which is that of the forms in the chart. -/
lemma isLeast_and_isDerivable_iff_of_run
    (hrules : ∀ rule ∈ schema.rules, rule.IsUnweighted ∧ rule.IsUnambiguous) {fuel : ℕ}
    {o : Outcome W} (h : run settings schema fuel = .ok o) :
    IsLeast {F | schema.IsClosed F} o.chart.forms ∧
      (o.isDerivable = true ↔ ∃ x ∈ schema.goals, x.form ∈ o.chart.forms) := by
  obtain ⟨t, ht, rfl⟩ := run_eq_ok h
  exact ⟨isLeast_forms_of_finalState hrules ht,
    isDerivable_ofChart_iff (consistent_of_finalState ht).1.indexed schema.goals⟩

/-- When a run that keeps all derivations has ended, something is derivable if a rule with one
premise concludes a goal from an axiom, whatever trees the item of the axiom has got. -/
lemma isDerivable_of_mem_axioms (hpolicy : settings.policy = .accumulate) {fuel : ℕ} {o : Outcome W}
    (h : run settings schema fuel = .ok o) {a : Axiom W} (ha : a ∈ schema.axioms)
    (hx : x ∈ a.items) (rule : Rule W) (hrule : rule ∈ schema.rules)
    {goal : Item W} (hgoal : goal ∈ schema.goals)
    (hfire : ∀ y : Item W, y.form = x.form →
      ∃ f, rule.fire? [y] = some f ∧ ∃ z ∈ f.items, z.form = goal.form) : o.isDerivable = true := by
  obtain ⟨t, ht, rfl⟩ := run_eq_ok h
  obtain ⟨y, hy, hform⟩ := Chart.mem_forms_iff.1 (mem_forms_of_mem_axioms ht ha hx)
  obtain ⟨f, hf, z, hz, hzform⟩ := hfire y hform
  obtain ⟨z', hz', hzform', -⟩ := keeps_of_fire hpolicy ht hrule hy hf hz
  exact (isDerivable_ofChart_iff (consistent_of_finalState ht).1.indexed _).2
    ⟨goal, hgoal, Chart.mem_forms_iff.2 ⟨z', hz', hzform'.trans hzform⟩⟩

/-- Whatever happens to consequences that are in the chart already, and however large the chart may
grow: if a run ends with an outcome, the forms in its chart are the least set that contains the
forms of the axioms and is closed under the rules. -/
theorem run_isLeast_forms
    (hrules : ∀ rule ∈ schema.rules, rule.IsUnweighted ∧ rule.IsUnambiguous) {fuel : ℕ}
    {o : Outcome W} (h : run settings schema fuel = .ok o) :
    IsLeast {F | schema.IsClosed F} o.chart.forms := by
  exact (isLeast_and_isDerivable_iff_of_run hrules h).1

/-- A run on two spans ends with the least closed set. -/
theorem exists_run_isLeast_forms_twoSpans :
    ∃ fuel o, run ⟨.accumulate, none⟩ (Schema.twoSpans : Schema Float) fuel = .ok o ∧
      IsLeast {F | (Schema.twoSpans : Schema Float).IsClosed F} o.chart.forms := by
  obtain ⟨fuel, o, h⟩ := exists_run_twoSpans (W := Float)
  exact ⟨fuel, o, h, run_isLeast_forms Schema.twoSpans_rules h⟩

end Deduction

end DeductiveParsing
