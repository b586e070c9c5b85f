/-
Runs that come to an end.

* `Schema.Limits`, `Schema.Bounds`: a property of all charts, or of all items, of a run that leaves
  room for finitely many forms and trees only;
* `Schema.Bounds.ofForms`: bounds for items without trees;
* `State.slack`: the number of positions that wait, and the room that is left;
* `exists_merge`: a merge does not increase the slack;
* `Budget.ofLimits`: so the slack is a budget, since each expansion takes one position off the
  agenda;
* `exists_run_of_limits`, `exists_run`: a run with limits or bounds that keeps all derivations
  ends.
-/
import DeductiveParsing.Proofs.Deduction.Budget
import DeductiveParsing.Proofs.Deduction.Forests
import DeductiveParsing.Weight.Double

namespace DeductiveParsing

variable {W : Type}

/-- If merging brings trees, one of them is new. -/
lemma Forest.card_lt_card_merge {forest new : List Tree}
    (h : forest.length < (merge forest new).length) :
    forest.toFinset.card < (merge forest new).toFinset.card := by
  induction new generalizing forest with
  | nil => exact absurd h (lt_irrefl _)
  | cons t new ih =>
      rw [merge, List.foldl_cons] at h ⊢
      split at h
      · rename_i hout
        rw [if_pos hout]
        exact ih h
      · rename_i hin
        rw [if_neg hin]
        have hnew : t ∉ forest := fun ht => hin (excludes_iff.2 (Or.inl ht))
        have hgrown : (forest ++ [t]).toFinset.card = forest.toFinset.card + 1 := by
          simp [List.toFinset_append, hnew]
        have hle : (forest ++ [t]).toFinset ⊆ (merge (forest ++ [t]) new).toFinset :=
          fun u hu => List.mem_toFinset.2 ((prefix_merge _ _).subset (List.mem_toFinset.1 hu))
        exact (Nat.lt_of_lt_of_eq (Nat.lt_succ_self _) hgrown.symm).trans_le
          (Finset.card_le_card hle)

/-- Whether all items of a chart are in another one with at least their trees. -/
def Chart.IsPart (c c' : Chart W) : Prop :=
  ∀ x ∈ c.items, ∃ y ∈ c'.items, y.form = x.form ∧ x.trees ⊆ y.trees

/-- Limits for a run: what holds of its charts, which suits the items that axioms give and rules
conclude, is kept up by merging them, and leaves room for finitely many forms and trees. -/
structure Schema.Limits [Weight W] (schema : Schema W) where
  Holds : Chart W → Prop
  Suits : Chart W → Item W → Prop
  forms : Finset Form
  trees : Finset Tree
  holds_empty : Holds .empty
  holds_step : ∀ (settings : Settings) (s t : Deduction.State W) (x : Item W) (d : Derivation),
    settings.policy = .accumulate → s.Consistent → Holds s.chart → Suits s.chart x →
      Deduction.MergeStep settings s x d t → Holds t.chart
  suits_axiom : ∀ c, ∀ a ∈ schema.axioms, ∀ x ∈ a.items, Suits c x
  suits_fire : ∀ c, Holds c → ∀ rule ∈ schema.rules, ∀ (xs : List (Item W)) (f : Firing W),
    (∀ x ∈ xs, x ∈ c.items) → rule.fire? xs = some f → ∀ y ∈ f.items, Suits c y
  suits_mono : ∀ c c' x, Chart.IsPart c c' → Suits c x → Suits c' x
  form_mem : ∀ c, Holds c → ∀ x ∈ c.items, x.form ∈ forms
  tree_mem : ∀ c, Holds c → ∀ x ∈ c.items, ∀ t ∈ x.trees, t ∈ trees

/-- Bounds for a run: a property of items that axioms have, that rules and the merging of trees
preserve, and that leaves room for finitely many forms and trees. -/
structure Schema.Bounds [Weight W] (schema : Schema W) where
  Holds : Item W → Prop
  forms : Finset Form
  trees : Finset Tree
  holds_axiom : ∀ a ∈ schema.axioms, ∀ x ∈ a.items, Holds x
  holds_fire : ∀ rule ∈ schema.rules, ∀ (xs : List (Item W)) (f : Firing W), (∀ x ∈ xs, Holds x) →
    rule.fire? xs = some f → ∀ y ∈ f.items, Holds y
  holds_merge : ∀ x y, Holds x → Holds y → x.form = y.form →
    Holds { x with trees := Forest.merge x.trees y.trees }
  form_mem : ∀ x, Holds x → x.form ∈ forms
  tree_mem : ∀ x, Holds x → ∀ t ∈ x.trees, t ∈ trees

/-- Bounds for a run whose items carry no trees: finitely many forms that axioms have and rules do not
lead out of. -/
noncomputable def Schema.Bounds.ofForms [Weight W] {schema : Schema W} {forms : Set Form}
    (hfinite : forms.Finite)
    (hgiven : ∀ a ∈ schema.axioms, ∀ x ∈ a.items, x.form ∈ forms ∧ x.trees = [])
    (hfire : ∀ rule ∈ schema.rules, ∀ (xs : List (Item W)) (f : Firing W),
      (∀ x ∈ xs, x.form ∈ forms) → rule.fire? xs = some f →
        ∀ y ∈ f.items, y.form ∈ forms ∧ y.trees = []) : schema.Bounds where
  Holds x := x.form ∈ forms ∧ x.trees = []
  forms := hfinite.toFinset
  trees := ∅
  holds_axiom := hgiven
  holds_fire rule hrule xs f hxs hf := hfire rule hrule xs f (fun x hx => (hxs x hx).1) hf
  holds_merge x y hx hy _ := by
    refine ⟨hx.1, ?_⟩
    simp [hx.2, hy.2, Forest.merge]
  form_mem x hx := hfinite.mem_toFinset.2 hx.1
  tree_mem x hx := by simp [hx.2]

/-- Bounds for the items limit the charts. -/
def Schema.Bounds.limits [Weight W] {schema : Schema W} (bounds : schema.Bounds) :
    schema.Limits where
  Holds c := ∀ x ∈ c.items, bounds.Holds x
  Suits _ x := bounds.Holds x
  forms := bounds.forms
  trees := bounds.trees
  holds_empty := by
    rintro x ⟨i, hi⟩
    simp at hi
  holds_step settings s t x d _ hs hall hx h y hy := by
    rcases h.mem_items hs hy with hy | ⟨rfl, -⟩ | ⟨-, z, hz, hzx, rfl⟩
    · exact hall y hy
    · exact hx
    · exact bounds.holds_merge z x (hall z hz) hx hzx
  suits_axiom _ := bounds.holds_axiom
  suits_fire _ hall rule hrule xs f hxs := bounds.holds_fire rule hrule xs f
    fun x hx => hall x (hxs x hx)
  suits_mono _ _ _ _ hx := hx
  form_mem _ hall x hx := bounds.form_mem x (hall x hx)
  tree_mem _ hall x hx := bounds.tree_mem x (hall x hx)

namespace Deduction

/-! ### Slack -/

/-- How much of the room at a position is taken: none without an item, and otherwise the item and
its different trees. -/
def level (c : Chart W) (i : ℕ) : ℕ :=
  ((c.item? i).map fun x => x.trees.toFinset.card + 1).getD 0

/-- The number of positions that wait, and the room that is left at the first `n` positions, each of
which has room for an item with `m` trees. -/
def State.slack (n m : ℕ) (s : State W) : ℕ :=
  s.agenda.toList.length + ∑ i ∈ Finset.range n, (m + 1 - level s.chart i)

/-- A position waits again only if some room is taken. -/
lemma State.slack_le_of_level {n m : ℕ} {s t : State W}
    (hagenda : t.agenda.toList.length ≤ s.agenda.toList.length + 1)
    (hlevel : ∀ i, level s.chart i ≤ level t.chart i)
    (hstrict : t.agenda.toList.length ≤ s.agenda.toList.length ∨
      ∃ i < n, level s.chart i < level t.chart i ∧ level t.chart i ≤ m + 1) :
    t.slack n m ≤ s.slack n m := by
  have hle : ∀ i ∈ Finset.range n, m + 1 - level t.chart i ≤ m + 1 - level s.chart i := by
    intro i _
    have := hlevel i
    omega
  rcases hstrict with hkeep | ⟨i, hi, hlt, hbound⟩
  · exact Nat.add_le_add hkeep (Finset.sum_le_sum hle)
  · have hsum := Finset.sum_lt_sum hle
      ⟨i, Finset.mem_range.2 hi, show m + 1 - level t.chart i < m + 1 - level s.chart i by omega⟩
    unfold State.slack
    omega

lemma State.Accrues.isPart {s t : State W} (h : s.Accrues t) : s.chart.IsPart t.chart := by
  rintro y ⟨i, hi⟩
  obtain ⟨z, hz, hzy, hle⟩ := h i y hi
  exact ⟨z, ⟨i, hz⟩, hzy, hle.subset⟩

variable [Weight W] {settings : Settings} {schema : Schema W}

/-- A consistent state whose chart is within the limits. -/
structure State.Within (limits : schema.Limits) (s : State W) : Prop where
  consistent : s.Consistent
  holds : limits.Holds s.chart

section Limits

variable {limits : schema.Limits} {s t : State W} {x : Item W} {d : Derivation}

/-- There are not more items than forms. -/
lemma State.Within.size_le (hs : s.Within limits) : s.chart.size ≤ limits.forms.card :=
  hs.consistent.indexed.size_le_card (limits.form_mem _ hs.holds)

/-- An item within the limits has not more different trees than there are. -/
lemma State.Within.card_trees_le (hs : s.Within limits) (hx : x ∈ s.chart.items) :
    x.trees.toFinset.card ≤ limits.trees.card :=
  Finset.card_le_card fun t ht => limits.tree_mem _ hs.holds x hx t (List.mem_toFinset.1 ht)

/-- A merge leaves a state within the limits. -/
lemma State.Within.of_mergeStep (hpolicy : settings.policy = .accumulate) (hs : s.Within limits)
    (hx : limits.Suits s.chart x) (h : MergeStep settings s x d t) : t.Within limits :=
  ⟨h.consistent hs.consistent,
    limits.holds_step settings s t x d hpolicy hs.consistent hs.holds hx h⟩

/-- A new item takes room at the position that begins to wait. -/
lemma State.Within.slack_insert (hs : s.Within limits)
    (ht : (State.requeue ⟨s.chart.push x d, s.agenda⟩ s.chart.size).Within limits) :
    (State.requeue ⟨s.chart.push x d, s.agenda⟩ s.chart.size).slack limits.forms.card
      limits.trees.card ≤ s.slack limits.forms.card limits.trees.card := by
  have hnone : s.chart.item? s.chart.size = none := Chart.item?_eq_none le_rfl
  have hmem : x ∈ (State.requeue ⟨s.chart.push x d, s.agenda⟩ s.chart.size).chart.items :=
    ⟨s.chart.size, by rw [State.requeue, Chart.item?_push, if_pos rfl]⟩
  refine State.slack_le_of_level (Agenda.length_add hs.consistent.agenda _) (fun i => ?_)
    (Or.inr ⟨s.chart.size, ?_, ?_⟩)
  · rw [level, State.requeue, level, Chart.item?_push]
    split
    · rename_i hi
      simp [hi, hnone]
    · rfl
  · simpa [State.requeue] using ht.size_le
  · have := ht.card_trees_le hmem
    simp [level, State.requeue, Chart.item?_push, hnone, this]

/-- A derivation that is recorded takes room if its position waits again. -/
lemma State.Within.slack_accumulate (hs : s.Within limits) {i : ℕ}
    (hold : s.chart.position? x = some i) (ht : (s.accumulate i x d).Within limits) :
    (s.accumulate i x d).slack limits.forms.card limits.trees.card ≤
      s.slack limits.forms.card limits.trees.card := by
  obtain ⟨y, hy, hyx⟩ :=
    Option.map_eq_some_iff.1 (hs.consistent.indexed.position?_eq_some.1 hold)
  have hlevel : ∀ j, level s.chart j ≤ level (s.accumulate i x d).chart j := by
    intro j
    rw [level, level, State.item?_accumulate]
    split
    · cases s.chart.item? j with
      | none => rfl
      | some z =>
          have hle : z.trees.toFinset.card ≤ (Forest.merge z.trees x.trees).toFinset.card :=
            Finset.card_le_card fun t ht => List.mem_toFinset.2
              ((Forest.prefix_merge z.trees x.trees).subset (List.mem_toFinset.1 ht))
          simpa using hle
    · rfl
  refine State.slack_le_of_level ?_ hlevel ?_
  · rw [State.agenda_accumulate]
    split
    · exact Agenda.length_add hs.consistent.agenda i
    · omega
  · rw [State.agenda_accumulate]
    split
    · -- the item waits again because it has more trees
      rename_i hmore
      have hz : (s.accumulate i x d).chart.item? i =
          some { y with trees := Forest.merge y.trees x.trees } := by
        simp [State.item?_accumulate, hy]
      have hcard := ht.card_trees_le ⟨i, hz⟩
      have hgrown : y.trees.length < (Forest.merge y.trees x.trees).length := by
        simpa [Chart.treeCount, hy, hz] using hmore
      refine Or.inr ⟨i, (Chart.lt_size_iff.2 ⟨y, hy⟩).trans_le hs.size_le, ?_, ?_⟩
      · simpa [level, hy, hz] using Forest.card_lt_card_merge hgrown
      · simpa [level, hz] using hcard
    · exact Or.inl le_rfl

/-- Merging an item that suits the chart succeeds and does not increase the slack. -/
lemma exists_merge (hpolicy : settings.policy = .accumulate) (hlimit : settings.limit = none)
    (hs : s.Within limits) (hx : limits.Suits s.chart x) (d : Derivation) :
    ∃ t : State W, s.merge settings x d = .ok t ∧ t.Within limits ∧ s.chart.IsPart t.chart ∧
      t.slack limits.forms.card limits.trees.card ≤
        s.slack limits.forms.card limits.trees.card := by
  have hstep : ∀ t, MergeStep settings s x d t → t.Within limits ∧ s.chart.IsPart t.chart :=
    fun t h => ⟨hs.of_mergeStep hpolicy hx h, (h.accrues hpolicy).isPart⟩
  rw [State.merge, hpolicy]
  split
  · rename_i hnew
    rw [State.insert, hlimit, State.isFull]
    obtain ⟨hwithin, hpart⟩ := hstep _ (.insert hnew)
    exact ⟨_, rfl, hwithin, hpart, hs.slack_insert hwithin⟩
  · rename_i i hold
    obtain ⟨hwithin, hpart⟩ := hstep _ (.accumulate hpolicy hold)
    exact ⟨_, rfl, hwithin, hpart, hs.slack_accumulate hold hwithin⟩

end Limits

/-- A run within limits that keeps all derivations has a budget: the slack. -/
def Budget.ofLimits (hpolicy : settings.policy = .accumulate) (hlimit : settings.limit = none)
    (limits : schema.Limits) : Budget settings schema where
  Holds s := s.Within limits
  Suits s x := limits.Suits s.chart x
  left s := s.slack limits.forms.card limits.trees.card
  holds_empty := ⟨State.consistent_empty, limits.holds_empty⟩
  suits_axiom s _ := limits.suits_axiom s.chart
  suits_fire s hs := limits.suits_fire s.chart hs.holds
  exists_merge s x d hs hx := by
    obtain ⟨t, ht, hwithin, hpart, hslack⟩ := Deduction.exists_merge hpolicy hlimit hs hx d
    exact ⟨t, ht, hwithin, hslack, fun y => limits.suits_mono _ _ y hpart⟩
  pop s first agenda hs hnext := by
    refine ⟨⟨hs.consistent.pop hnext, hs.holds⟩, ?_⟩
    rw [State.slack, State.slack, Agenda.toList_of_next? hnext, List.length_cons]
    exact Nat.add_lt_add_right (Nat.lt_succ_self _) _

/-- If there are limits for the charts of a run, the run ends when all derivations are kept and the
chart may grow without a bound. -/
theorem exists_run_of_limits (hpolicy : settings.policy = .accumulate)
    (hlimit : settings.limit = none) (limits : schema.Limits) :
    ∃ fuel o, run settings schema fuel = .ok o :=
  exists_run_of_budget (.ofLimits hpolicy hlimit limits)

/-- If there are bounds for the items of a run, the run ends when all derivations are kept and the
chart may grow without a limit. -/
theorem exists_run (hpolicy : settings.policy = .accumulate) (hlimit : settings.limit = none)
    (bounds : schema.Bounds) : ∃ fuel o, run settings schema fuel = .ok o :=
  exists_run_of_limits hpolicy hlimit bounds.limits

end Deduction

/-! ### Two spans -/

namespace Schema

/-- The production of `S` from `A` and `B`. -/
def pairProduction : Production := ⟨"S", [.nonterminal "A", .nonterminal "B"]⟩

/-- A schema with two spans of one token each, one behind the other, and a rule that joins them. -/
def twoSpans : Schema W :=
  make [⟨"scan", [CykRule.item "A" 0 1 [], CykRule.item "B" 1 1 []]⟩]
    [.cyk (.binary pairProduction)] [CykRule.item "S" 0 2 []]

/-- The forms of the two spans and of both together. -/
def twoSpansForms : List Form :=
  [[.symbol "A", .index 0, .index 1], [.symbol "B", .index 1, .index 1],
    [.symbol "S", .index 0, .index 2]]

/-- The two spans can be joined in one way only. -/
lemma form_of_joinTwo {x y : Item W} {f : Firing W} (hx : x.form ∈ twoSpansForms)
    (hy : y.form ∈ twoSpansForms) (hxt : x.trees = [])
    (h : CykRule.joinTwo pairProduction x y = some f) :
    f.items = [CykRule.item "S" 0 2 []] := by
  obtain ⟨form, w, ts⟩ := x
  obtain ⟨form', w', ts'⟩ := y
  obtain rfl : ts = [] := hxt
  simp only [twoSpansForms, List.mem_cons, List.not_mem_nil, or_false] at hx hy
  rcases hx with rfl | rfl | rfl <;> rcases hy with rfl | rfl | rfl <;>
    simp [CykRule.joinTwo, Item.symbol?, Item.index?, Item.field?, pairProduction,
      Production.rhsNames, Symbol.name, Firing.one] at h
  have hnone : Choice.choices [[], ts'] = [] := by
    rw [Choice.choices, List.flatMap_eq_nil_iff]
    exact fun _ _ => rfl
  rw [← h, Forest.fill, Forest.fillings, hnone]
  rfl

lemma twoSpans_rules :
    ∀ rule ∈ (twoSpans : Schema W).rules, rule.IsUnweighted ∧ rule.IsUnambiguous := by
  intro rule hrule
  obtain rfl : rule = .cyk (.binary pairProduction) := by simpa [twoSpans, make] using hrule
  exact ⟨trivial, trivial⟩

/-- Bounds for runs of the schema with two spans. -/
def twoSpansBounds [Weight W] : (twoSpans : Schema W).Bounds where
  Holds x := x.form ∈ twoSpansForms ∧ x.trees = []
  forms := twoSpansForms.toFinset
  trees := ∅
  holds_axiom a ha x hx := by
    obtain rfl : a = ⟨"scan", [CykRule.item "A" 0 1 [], CykRule.item "B" 1 1 []]⟩ := by
      simpa [twoSpans, make] using ha
    simp only [List.mem_cons, List.not_mem_nil, or_false] at hx
    rcases hx with rfl | rfl <;>
      exact ⟨by simp [CykRule.item, Item.withTrees, twoSpansForms], rfl⟩
  holds_fire rule hrule xs f hxs hf y hy := by
    obtain rfl : rule = .cyk (.binary pairProduction) := by simpa [twoSpans, make] using hrule
    obtain ⟨hlen, hf⟩ := Rule.fire?_eq_some.1 hf
    obtain ⟨x, x', rfl⟩ := List.length_eq_two.1 hlen
    obtain ⟨hx, hxt⟩ := hxs x (by simp)
    obtain ⟨hx', hxt'⟩ := hxs x' (by simp)
    have hitems : f.items = [CykRule.item "S" 0 2 []] := by
      rcases Firing.eq_some_of_eitherOrder? hf with hf | hf
      · exact form_of_joinTwo hx hx' hxt hf
      · exact form_of_joinTwo hx' hx hxt' hf
    rw [hitems, List.mem_singleton] at hy
    subst hy
    exact ⟨by simp [CykRule.item, Item.withTrees, twoSpansForms], rfl⟩
  holds_merge x y hx hy _ := by
    refine ⟨hx.1, ?_⟩
    simp [hx.2, hy.2, Forest.merge]
  form_mem x hx := List.mem_toFinset.2 hx.1
  tree_mem x hx := by simp [hx.2]

end Schema

/-- The run on two spans ends. -/
lemma Deduction.exists_run_twoSpans [Weight W] :
    ∃ fuel o, run ⟨.accumulate, none⟩ (Schema.twoSpans : Schema W) fuel = .ok o :=
  exists_run rfl rfl Schema.twoSpansBounds

end DeductiveParsing
