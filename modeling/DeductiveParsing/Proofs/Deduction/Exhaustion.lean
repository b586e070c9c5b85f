/-
What a run has taken notice of when it has ended.

* `Chart.items`: the items in a chart;
* `MergeStep.still`: an item that does not wait behind a merge is what it was before;
* `Upkeep`: a way of taking notice of consequences that merging establishes and keeps up;
* `State.IsExhausted`, `State.IsSaturated`: a rule has been tried on the items at some positions as
  they are now, and all rules on all positions none of which waits;
* `Upkeep.kept_of_finalState`: at the end notice is taken of everything that a rule concludes from
  items with different forms, given in the right order;
* `finalState_induction`: what axioms establish and rules preserve holds of the chart at the end.
-/
import DeductiveParsing.Proofs.Deduction.Run
import DeductiveParsing.Proofs.Item.Forest

namespace DeductiveParsing

variable {W : Type}

/-! ### Items of charts -/

namespace Chart

/-- The items in a chart. -/
def items (c : Chart W) : Set (Item W) := {x | ∃ i, c.item? i = some x}

/-- An indexed chart has one item of each form. -/
lemma Indexed.eq_of_items {c : Chart W} (hc : c.Indexed) {x y : Item W} (hx : x ∈ c.items)
    (hy : y ∈ c.items) (h : x.form = y.form) : x = y := by
  obtain ⟨i, hi⟩ := hx
  obtain ⟨j, hj⟩ := hy
  have hi' : c.form? i = some x.form := by rw [form?, hi, Option.map_some]
  have hj' : c.form? j = some x.form := by rw [form?, hj, h, Option.map_some]
  obtain rfl := hc.eq_of_form hi' hj'
  exact Option.some.inj (hi.symm.trans hj)

/-- There are not more items in an indexed chart than forms that they can have. -/
lemma Indexed.size_le_card {c : Chart W} (hc : c.Indexed) {forms : Finset Form}
    (hforms : ∀ x ∈ c.items, x.form ∈ forms) : c.size ≤ forms.card := by
  have hform : ∀ i ∈ Finset.range c.size, ∃ x, c.item? i = some x :=
    fun i hi => lt_size_iff.1 (Finset.mem_range.1 hi)
  have hcard : (Finset.range c.size).card ≤ forms.card := by
    refine Finset.card_le_card_of_injOn (fun i => (c.form? i).getD []) (fun i hi => ?_)
      fun i hi j hj hij => ?_
    · obtain ⟨x, hx⟩ := hform i hi
      simpa [form?, hx] using hforms x ⟨i, hx⟩
    · obtain ⟨x, hx⟩ := hform i hi
      obtain ⟨y, hy⟩ := hform j hj
      have hxy : x.form = y.form := by simpa [form?, hx, hy] using hij
      have hi : c.form? i = some x.form := by simp [form?, hx]
      have hj : c.form? j = some x.form := by simp [form?, hy, hxy]
      exact hc.eq_of_form hi hj
  simpa using hcard

/-- Items with different forms stand at different positions. -/
lemma exists_positions_of_mem_items {c : Chart W} {xs : List (Item W)} (hxs : ∀ x ∈ xs, x ∈ c.items)
    (hnodup : (xs.map Item.form).Nodup) :
    ∃ positions : List ℕ, positions.Nodup ∧ positions.map c.item? = xs.map some := by
  obtain ⟨positions, hpositions⟩ : ∃ positions : List ℕ,
      positions.map c.item? = xs.map some := by
    clear hnodup
    induction xs with
    | nil => exact ⟨[], rfl⟩
    | cons x xs ih =>
        obtain ⟨i, hi⟩ := hxs x List.mem_cons_self
        obtain ⟨positions, hrest⟩ := ih fun y hy => hxs y (List.mem_cons_of_mem _ hy)
        exact ⟨i :: positions, by rw [List.map_cons, List.map_cons, hi, hrest]⟩
  refine ⟨positions, List.Nodup.of_map c.item? ?_, hpositions⟩
  rw [hpositions]
  exact (List.Nodup.of_map _ hnodup).map (Option.some_injective _)

lemma mem_items_of_map {c : Chart W} {positions : List ℕ} {xs : List (Item W)}
    (h : positions.map c.item? = xs.map some) : ∀ x ∈ xs, x ∈ c.items := by
  intro x hx
  have hmem : some x ∈ positions.map c.item? := h ▸ List.mem_map_of_mem hx
  obtain ⟨i, -, hi⟩ := List.mem_map.1 hmem
  exact ⟨i, hi⟩

lemma map_form? {c : Chart W} {positions : List ℕ} {xs : List (Item W)}
    (h : positions.map c.item? = xs.map some) :
    positions.map c.form? = (xs.map Item.form).map some := by
  have hforms := congrArg (List.map (Option.map Item.form)) h
  rw [List.map_map, List.map_map] at hforms
  rw [List.map_map]
  exact hforms

/-- Items at different positions have different forms. -/
lemma Indexed.nodup_forms {c : Chart W} (hc : c.Indexed) {positions : List ℕ}
    {xs : List (Item W)} (hnodup : positions.Nodup) (h : positions.map c.item? = xs.map some) :
    (xs.map Item.form).Nodup := by
  rw [← List.nodup_map_iff (Option.some_injective _), ← map_form? h]
  refine hnodup.map_on fun i hi j _ hij => ?_
  obtain ⟨y, hy⟩ := lt_size_iff.1 (Chart.lt_size_of_mapM h i hi)
  have hform : c.form? i = some y.form := by rw [form?, hy]; rfl
  exact hc.eq_of_form hform (hij ▸ hform)

end Chart

namespace Deduction

variable {settings : Settings} {s t u : State W} {x : Item W} {d : Derivation}

/-! ### What does not wait -/

/-- An item that does not wait behind a merge is what it was before. -/
lemma MergeStep.still (h : MergeStep settings s x d t) (hs : s.Consistent) {i : ℕ}
    (hi : i < s.chart.size) (hwait : i ∉ t.agenda.toList) :
    t.chart.item? i = s.chart.item? i := by
  cases h with
  | insert hnew => rw [State.requeue, Chart.item?_push, if_neg hi.ne]
  | keep => rfl
  | @replace j hne hold =>
      rw [State.requeue, Chart.replace, Chart.item?, Chart.entries_modify, if_neg]
      · rfl
      · rintro rfl
        exact hwait ((Agenda.mem_add hs.agenda).2 (Or.inr rfl))
  | @accumulate j _ hold =>
      obtain ⟨y, hy⟩ := Chart.lt_size_iff.1 hi
      rw [State.item?_accumulate]
      split
      · -- the position does not wait, so there are no more trees than before
        rename_i hij
        subst hij
        rw [State.agenda_accumulate] at hwait
        split at hwait
        · exact absurd ((Agenda.mem_add hs.agenda).2 (Or.inr rfl)) hwait
        · rename_i hmore
          have hlength : (Forest.merge y.trees x.trees).length ≤ y.trees.length := by
            simpa [Chart.treeCount, State.item?_accumulate, hy] using hmore
          have hsame := (Forest.prefix_merge y.trees x.trees).eq_of_length_le hlength
          rw [hy, Option.map_some, ← hsame]
      · rfl

variable [Weight W] {schema : Schema W}

lemma Grows.still (h : Grows settings s t) (hs : s.Consistent) {i : ℕ} (hi : i < s.chart.size)
    (hwait : i ∉ t.agenda.toList) : t.chart.item? i = s.chart.item? i := by
  induction h with
  | refl => rfl
  | tail hgrows hstep ih =>
      obtain ⟨x, d, hmerge⟩ := hstep
      have hstep := MergeStep.of_merge hmerge
      obtain ⟨hconsistent, hevolves⟩ := Grows.consistent_and_evolves hgrows hs
      rw [hstep.still hconsistent (hi.trans_le hevolves.size_le) hwait]
      exact ih fun hmem => hwait ((hstep.evolves hconsistent).waits i hmem)

/-! ### Taking notice -/

/-- A way of taking notice of consequences: notice is taken of what is merged, and merging anything
else does not undo that. -/
structure Upkeep (W : Type) [Weight W] (settings : Settings) where
  Kept : Chart W → Item W → Prop
  of_merge : ∀ {s t : State W} {x : Item W} {d : Derivation}, s.Consistent →
    s.merge settings x d = .ok t → Kept t.chart x
  mono : ∀ {s t : State W} {x y : Item W} {d : Derivation}, s.Consistent →
    s.merge settings x d = .ok t → Kept s.chart y → Kept t.chart y

variable (upkeep : Upkeep W settings)

/-- Whether notice has been taken of all that a rule concludes from the items at given positions in
some order. -/
def State.IsExhausted (s : State W) (rule : Rule W) (positions : List ℕ) : Prop :=
  ∃ order : List ℕ, order.Perm positions ∧ ∀ xs f, order.mapM s.chart.item? = some xs →
    rule.fire? xs = some f → ∀ y ∈ f.items, upkeep.Kept s.chart y

/-- Whether all rules are exhausted at positions none of which waits. -/
def State.IsSaturated (schema : Schema W) (s : State W) : Prop :=
  ∀ rule ∈ schema.rules, ∀ positions : List ℕ, positions.Nodup →
    positions.length = rule.arity → (∀ i ∈ positions, i < s.chart.size ∧ i ∉ s.agenda.toList) →
      s.IsExhausted upkeep rule positions

namespace Upkeep

variable {upkeep}

lemma kept_of_grows (hs : s.Consistent) (h : Grows settings s t) {y : Item W}
    (hy : upkeep.Kept s.chart y) : upkeep.Kept t.chart y := by
  induction h with
  | refl => exact hy
  | tail hgrows hstep ih =>
      obtain ⟨x, d, hmerge⟩ := hstep
      exact upkeep.mono (Grows.consistent_and_evolves hgrows hs).1 hmerge ih

/-- Trying a rule at positions takes notice of its consequences. -/
lemma kept_of_applyAt (hs : s.Consistent) {rule : Rule W} {positions : List ℕ}
    (h : s.applyAt settings rule positions = .ok t) {xs : List (Item W)} {f : Firing W}
    (hxs : positions.mapM s.chart.item? = some xs) (hf : rule.fire? xs = some f) {y : Item W}
    (hy : y ∈ f.items) : upkeep.Kept t.chart y := by
  rcases State.applyAt_cases h with ⟨hnone, -⟩ | ⟨xs', f', hxs', hf', hfold⟩
  · simp [hxs, hf] at hnone
  obtain rfl : xs = xs' := Option.some.inj (hxs.symm.trans hxs')
  obtain rfl : f = f' := Option.some.inj (hf.symm.trans hf')
  obtain ⟨before, behind, u, v, -, hbefore, hmerge, hbehind⟩ := exists_step_of_foldlM hfold hy
  have hu := ((Grows.of_merges hbefore).consistent_and_evolves hs).1
  exact kept_of_grows ((MergeStep.of_merge hmerge).consistent hu) (.of_merges hbehind)
    (upkeep.of_merge hu hmerge)

/-- What is exhausted stays so as long as none of the positions waits again. -/
lemma isExhausted_of_grows (hs : s.Consistent) {rule : Rule W} {positions : List ℕ}
    (h : s.IsExhausted upkeep rule positions) (hgrows : Grows settings s t)
    (hpositions : ∀ i ∈ positions, i < s.chart.size ∧ i ∉ t.agenda.toList) :
    t.IsExhausted upkeep rule positions := by
  obtain ⟨order, hperm, hkept⟩ := h
  refine ⟨order, hperm, fun xs f hxs hf y hy => kept_of_grows hs hgrows (hkept xs f ?_ hf y hy)⟩
  rw [mapM_eq_some_iff] at hxs ⊢
  rw [← hxs]
  refine List.map_congr_left fun i hi => ?_
  obtain ⟨hlt, hwait⟩ := hpositions i (hperm.subset hi)
  exact (hgrows.still hs hlt hwait).symm

/-- An expansion exhausts the rules at all positions that include its own and do not wait again. -/
lemma isExhausted_of_expand (hs : s.Consistent) {first : ℕ}
    (h : State.expand settings schema first s = .ok t) {rule : Rule W}
    (hrule : rule ∈ schema.rules) {positions : List ℕ} (hnodup : positions.Nodup)
    (hlength : positions.length = rule.arity) (hfirst : first ∈ positions)
    (hpositions : ∀ i ∈ positions, i < s.chart.size ∧ i ∉ t.agenda.toList) :
    t.IsExhausted upkeep rule positions := by
  obtain ⟨_, _, u, v, -, hu, hrules, hv⟩ := exists_step_of_foldlM h hrule
  have hgrowsu : Grows settings s u := .of_foldlM hu fun _ _ _ hx => .of_applyRule hx
  have hgrowsv : Grows settings v t := .of_foldlM hv fun _ _ _ hx => .of_applyRule hx
  have hpos := rule.arity_pos
  rw [State.applyRule] at hrules
  split at hrules
  · omega
  rename_i needed hneeded
  -- the other positions, put in order, are among the choices
  have hsort := List.mergeSort_perm (positions.erase first) (· ≤ ·)
  have hperm : (first :: (positions.erase first).mergeSort).Perm positions :=
    (hsort.cons first).trans (List.perm_cons_erase hfirst).symm
  have hothers : (positions.erase first).mergeSort ∈
      State.otherPositions u.chart.size first needed := by
    refine State.mem_otherPositions.2 ⟨pairwise_lt_mergeSort (hnodup.erase _), fun i hi => ?_, ?_⟩
    · obtain ⟨hne, hi⟩ := (List.Nodup.mem_erase_iff hnodup).1 (hsort.subset hi)
      exact ⟨(hpositions i hi).1.trans_le (hgrowsu.consistent_and_evolves hs).2.size_le, hne⟩
    · rw [hsort.length_eq, List.length_erase_of_mem hfirst]
      omega
  obtain ⟨_, _, u', v', -, hu', hstep, hv'⟩ := exists_step_of_foldlM hrules hothers
  have hgrowsu' : Grows settings s u' :=
    hgrowsu.trans (Grows.of_foldlM hu' fun _ _ _ hx => .of_applyAt hx)
  have hgrowsv' : Grows settings v' t :=
    (Grows.of_foldlM hv' fun _ _ _ hx => .of_applyAt hx).trans hgrowsv
  obtain ⟨hconsistent, hevolves⟩ := hgrowsu'.consistent_and_evolves hs
  have hgrows : Grows settings u' t := (Grows.of_applyAt hstep).trans hgrowsv'
  have hconsistent' := ((Grows.of_applyAt hstep).consistent_and_evolves hconsistent).1
  refine ⟨_, hperm, fun xs f hxs hf y hy => ?_⟩
  -- when it is their turn, the items are those at the end
  have hxs' : (first :: (positions.erase first).mergeSort).mapM u'.chart.item? = some xs := by
    rw [mapM_eq_some_iff] at hxs ⊢
    rw [← hxs]
    refine List.map_congr_left fun i hi => ?_
    obtain ⟨hlt, hwait⟩ := hpositions i (hperm.subset hi)
    exact (hgrows.still hconsistent (hlt.trans_le hevolves.size_le) hwait).symm
  exact kept_of_grows hconsistent' hgrowsv' (kept_of_applyAt hconsistent hstep hxs' hf hy)

/-- Expanding the next position leaves a saturated state. -/
lemma isSaturated_expand {first : ℕ} {agenda : Agenda} (hs : s.Consistent)
    (hsaturated : s.IsSaturated upkeep schema) (hnext : s.agenda.next? = some (first, agenda))
    (h : State.expand settings schema first ⟨s.chart, agenda⟩ = .ok t) :
    t.IsSaturated upkeep schema := by
  intro rule hrule positions hnodup hlength hpositions
  have hpop := hs.pop hnext
  have hgrows : Grows settings ⟨s.chart, agenda⟩ t := .of_expand h
  obtain ⟨-, hevolves⟩ := hgrows.consistent_and_evolves hpop
  -- new positions wait, so all are old
  have hold : ∀ i ∈ positions, i < s.chart.size ∧ i ∉ t.agenda.toList := by
    intro i hi
    refine ⟨?_, (hpositions i hi).2⟩
    by_contra hge
    exact (hpositions i hi).2 (hevolves.fresh_waits i (not_lt.1 hge) (hpositions i hi).1)
  by_cases hfirst : first ∈ positions
  · exact isExhausted_of_expand hpop h hrule hnodup hlength hfirst hold
  · refine isExhausted_of_grows (s := ⟨s.chart, agenda⟩) hpop
      (hsaturated rule hrule positions hnodup hlength fun i hi => ⟨(hold i hi).1, fun hwait => ?_⟩)
      hgrows hold
    rw [Agenda.toList_of_next? hnext, List.mem_cons] at hwait
    rcases hwait with rfl | hwait
    · exact hfirst hi
    · exact (hold i hi).2 (hevolves.waits i hwait)

/-! ### The end of a run -/

/-- At the end of a run all rules are exhausted at all positions. -/
lemma isSaturated_of_finalState (upkeep : Upkeep W settings) {fuel : ℕ}
    (h : finalState settings schema fuel = .ok t) :
    t.IsSaturated upkeep schema := by
  obtain ⟨s, hseed, hdrain⟩ := finalState_eq_ok h
  obtain ⟨hconsistent, hwaits⟩ := consistent_of_seed hseed
  -- behind the axioms every position waits, and a rule has a premise
  have hsaturated : s.IsSaturated upkeep schema := by
    intro rule hrule positions _ hlength hpositions
    have hpos := rule.arity_pos
    obtain ⟨i, hi⟩ := List.exists_mem_of_length_pos (hlength ▸ hpos)
    exact absurd (hwaits i (hpositions i hi).1) (hpositions i hi).2
  refine (drain_induction (P := fun s => s.Consistent ∧ s.IsSaturated upkeep schema) hdrain
    ⟨hconsistent, hsaturated⟩ ?_).1.2
  rintro s first agenda t ⟨hs, hsaturated⟩ hnext ht
  exact ⟨((Grows.of_expand ht).consistent_and_evolves (hs.pop hnext)).1,
    isSaturated_expand hs hsaturated hnext ht⟩

/-- At the end of a run, notice has been taken of all that a rule concludes from items of the chart
with different forms, in the right order. -/
theorem kept_of_finalState (upkeep : Upkeep W settings) {fuel : ℕ}
    (h : finalState settings schema fuel = .ok t) {rule : Rule W} (hrule : rule ∈ schema.rules)
    {xs : List (Item W)} (hlength : xs.length = rule.arity) (hxs : ∀ x ∈ xs, x ∈ t.chart.items)
    (hnodup : (xs.map Item.form).Nodup) :
    ∃ ys : List (Item W), ys.Perm xs ∧
      ∀ f, rule.fire? ys = some f → ∀ y ∈ f.items, upkeep.Kept t.chart y := by
  obtain ⟨positions, hdistinct, hpositions⟩ := Chart.exists_positions_of_mem_items hxs hnodup
  have hcount : positions.length = rule.arity := by
    rw [← List.length_map (f := t.chart.item?), hpositions, List.length_map, hlength]
  obtain ⟨order, hperm, hkept⟩ := isSaturated_of_finalState upkeep h rule hrule
    positions hdistinct hcount fun i hi =>
      ⟨Chart.lt_size_of_mapM hpositions i hi, by simp [(consistent_of_finalState h).2]⟩
  obtain ⟨ys, hys⟩ : ∃ ys : List (Item W), order.map t.chart.item? = ys.map some :=
    Chart.exists_items fun i hi => Chart.lt_size_of_mapM hpositions i (hperm.subset hi)
  refine ⟨ys, ?_, fun f hf y hy => hkept ys f (mapM_eq_some_iff.2 hys) hf y hy⟩
  rw [← List.map_perm_map_iff (Option.some_injective _), ← hys, ← hpositions]
  exact hperm.map _

end Upkeep

/-! ### Induction along a run -/

/-- What trying rules at different positions preserves is preserved by an expansion. -/
lemma expand_induction_applyAt {P : Chart W → Prop}
    (happly : ∀ (s : State W) (rule : Rule W) (positions : List ℕ) (t : State W),
      rule ∈ schema.rules → positions.Nodup → s.Consistent → P s.chart →
      s.applyAt settings rule positions = .ok t → P t.chart)
    {first : ℕ} (hs : s.Consistent) (h0 : P s.chart)
    (h : State.expand settings schema first s = .ok t) : P t.chart := by
  refine (foldlM_induction (P := fun u => Grows settings s u ∧ P u.chart) h ⟨.refl, h0⟩ ?_).2
  rintro u rule v hrule ⟨hgrows, hu⟩ hv
  refine ⟨hgrows.trans (Grows.of_applyRule hv), ?_⟩
  rw [State.applyRule] at hv
  split at hv
  · exact Except.ok.inj hv ▸ hu
  refine (foldlM_induction (P := fun u => Grows settings s u ∧ P u.chart) hv ⟨hgrows, hu⟩ ?_).2
  rintro u' others v' hothers ⟨hgrows', hu'⟩ hv'
  refine ⟨hgrows'.trans (Grows.of_applyAt hv'), ?_⟩
  obtain ⟨hsorted, hother, -⟩ := State.mem_otherPositions.1 hothers
  have hnodup : (first :: others).Nodup :=
    List.nodup_cons.2 ⟨fun hfirst => (hother first hfirst).2 rfl, hsorted.nodup⟩
  exact happly u' rule _ v' hrule hnodup (hgrows'.consistent_and_evolves hs).1 hu' hv'

/-- What holds of the empty chart and is preserved by the items of axioms and by trying rules at
different positions holds of the chart at the end of a run. -/
theorem finalState_induction {P : Chart W → Prop} (hempty : P .empty)
    (hseed : ∀ (s : State W) (name : String) (x : Item W) (t : State W),
      (name, x) ∈ schema.axiomItems → s.Consistent → P s.chart →
      seedItem settings name s x = .ok t → P t.chart)
    (happly : ∀ (s : State W) (rule : Rule W) (positions : List ℕ) (t : State W),
      rule ∈ schema.rules → positions.Nodup → s.Consistent → P s.chart →
      s.applyAt settings rule positions = .ok t → P t.chart)
    {fuel : ℕ} (h : finalState settings schema fuel = .ok t) : P t.chart := by
  obtain ⟨s, hs, hdrain⟩ := finalState_eq_ok h
  have hstart : s.Consistent ∧ P s.chart := by
    refine seed_induction (P := fun s => s.Consistent ∧ P s.chart) hs
      ⟨State.consistent_empty, hempty⟩ fun u name x v hx hu hv => ⟨?_, ?_⟩
    · rcases MergeStep.of_seedItem hv with ⟨-, hstep⟩ | ⟨-, rfl⟩
      · exact hstep.consistent hu.1
      · exact hu.1
    · exact hseed u name x v hx hu.1 hu.2 hv
  refine (drain_induction (P := fun s => s.Consistent ∧ P s.chart) hdrain hstart ?_).1.2
  rintro s first agenda t ⟨hs, hP⟩ hnext ht
  have hpop := hs.pop hnext
  exact ⟨((Grows.of_expand ht).consistent_and_evolves hpop).1,
    expand_induction_applyAt happly hpop hP ht⟩

end Deduction

end DeductiveParsing
