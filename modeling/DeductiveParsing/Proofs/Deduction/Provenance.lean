/-
Which derivations a run records when it keeps them all.

* `Schema.axiomDerivation?`: the derivation by the first axiom that gives an item of some form;
* `Account.recorded`: what is merged is recorded, and nothing recorded is forgotten;
* `IsExplained`: no derivation is recorded twice or without a reason;
* `run_derivations_exact`: the recorded derivations of an item are exactly those that its form has.
-/
import DeductiveParsing.Proofs.Deduction.Closure
import DeductiveParsing.Proofs.Deduction.FirstAxioms

namespace DeductiveParsing

variable {W : Type}

/-! ### Derivations by axioms -/

/-- The derivation by the first of several axioms that gives an item of a form. -/
def firstDerivation? (items : List (String × Item W)) (form : Form) : Option Derivation :=
  (items.find? fun a => a.2.form = form).map fun a => ⟨a.1, []⟩

/-- The derivation by the first axiom of a schema that gives an item of a form. -/
def Schema.axiomDerivation? (schema : Schema W) (form : Form) : Option Derivation :=
  firstDerivation? schema.axiomItems form

namespace Deduction

variable {settings : Settings} {schema : Schema W} {s t : State W} {x : Item W} {d : Derivation}

/-- Whether a chart holds the given items and no others, each with its first derivation. -/
structure HoldsFirst (items : List (String × Item W)) (c : Chart W) : Prop where
  exists_form : ∀ a ∈ items, ∃ i, c.form? i = some a.2.form
  derivations_eq : ∀ (i : ℕ) (e : Entry W), c.entries[i]? = some e →
    ∃ d, firstDerivation? items e.item.form = some d ∧ e.derivations = [d]

/-- Behind the axioms the chart holds their items, each with its first derivation. -/
lemma holdsFirst_of_seed (h : seed settings schema = .ok s) :
    HoldsFirst schema.axiomItems s.chart := by
  obtain ⟨hforms, hentries⟩ := holdsAxioms_of_seed h
  refine ⟨hforms, fun i e he => ?_⟩
  obtain ⟨a, ha, rfl⟩ := hentries i e he
  exact ⟨⟨a.1, []⟩, by rw [firstDerivation?]; exact congrArg _ ha, rfl⟩

/-! ### Recorded derivations -/

/-- If all derivations are kept, a merge makes a new entry or adds to an old one with its form. -/
lemma MergeStep.entries_cases (hpolicy : settings.policy = .accumulate)
    (h : MergeStep settings s x d t) (hs : s.Consistent) :
    (∀ i, t.chart.entries[i]? =
      if i = s.chart.size then some ⟨x, [d]⟩ else s.chart.entries[i]?) ∨
    ∃ j, s.chart.form? j = some x.form ∧ ∀ i, t.chart.entries[i]? =
      if j = i then (s.chart.entries[i]?).map fun e => (e.addDerivation d).mergeTrees x.trees
      else s.chart.entries[i]? := by
  cases h with
  | insert hnew => exact Or.inl fun i => Chart.entries_push _ x d i
  | accumulate _ hold =>
      exact Or.inr ⟨_, hs.indexed.position?_eq_some.1 hold, State.entries_accumulate s _ x d⟩
  | replace hne => exact absurd hpolicy hne
  | keep hne => exact absurd hpolicy hne

variable [Weight W]

/-- The account of the derivations that are recorded, for runs that keep all. -/
def Account.recorded (W : Type) [Weight W] {settings : Settings}
    (hpolicy : settings.policy = .accumulate) : Account W settings where
  Covers c d form := ∃ (i : ℕ) (e : Entry W), c.entries[i]? = some e ∧ e.item.form = form ∧
    d ∈ e.derivations
  of_merge {s _ x d} hs h := by
    rcases (MergeStep.of_merge h).entries_cases hpolicy hs with hnew | ⟨j, hj, hold⟩
    · exact ⟨s.chart.size, ⟨x, [d]⟩, by rw [hnew, if_pos rfl], rfl, List.mem_singleton_self d⟩
    · obtain ⟨y, hy, hform⟩ := Option.map_eq_some_iff.1 hj
      obtain ⟨e, he, rfl⟩ := Chart.item?_eq_some_iff.1 hy
      refine ⟨j, (e.addDerivation d).mergeTrees x.trees, by rw [hold, if_pos rfl, he]; rfl, ?_, ?_⟩
      · rw [Entry.mergeTrees, Entry.item_addDerivation]
        exact hform
      · exact Entry.mem_addDerivation.2 (Or.inr rfl)
  mono {s _ x d d' form} hs h := by
    rintro ⟨i, e, he, hform, hd'⟩
    rcases (MergeStep.of_merge h).entries_cases hpolicy hs with hnew | ⟨j, -, hold⟩
    · have hi : i ≠ s.chart.size := (Array.getElem?_eq_some_iff.1 he).1.ne
      exact ⟨i, e, by rw [hnew, if_neg hi, he], hform, hd'⟩
    · by_cases hij : j = i
      · refine ⟨i, (e.addDerivation d).mergeTrees x.trees, ?_, ?_, ?_⟩
        · rw [hold, if_pos hij, he]
          rfl
        · rw [Entry.mergeTrees, Entry.item_addDerivation]
          exact hform
        · exact Entry.mem_addDerivation.2 (Or.inl hd')
      · exact ⟨i, e, by rw [hold, if_neg hij, he], hform, hd'⟩

/-- Whether no derivation of an item is recorded twice, and each is by the first axiom or by a rule
that fires on the items of the chart. -/
def IsExplained (schema : Schema W) (c : Chart W) : Prop :=
  ∀ (i : ℕ) (e : Entry W), c.entries[i]? = some e → e.derivations.Nodup ∧
    ∀ d ∈ e.derivations, schema.axiomDerivation? e.item.form = some d ∨
      c.Justifies schema d e.item.form

/-- Merging a justified consequence leaves all derivations explained. -/
lemma IsExplained.merge (hpolicy : settings.policy = .accumulate)
    (hstable : schema.IsStable settings.policy) (hs : s.Consistent)
    (hexplained : IsExplained schema s.chart) (hd : s.chart.Justifies schema d x.form)
    (h : s.merge settings x d = .ok t) : IsExplained schema t.chart := by
  have hstep := MergeStep.of_merge h
  have hevolves := hstep.evolves hs
  have hkeep : ∀ {d form}, s.chart.Justifies schema d form → t.chart.Justifies schema d form :=
    fun hd => hevolves.justifies hstable hd
  intro i e he
  rcases hstep.entries_cases hpolicy hs with hnew | ⟨j, hj, hold⟩
  · rw [hnew] at he
    split at he
    · obtain rfl := Option.some.inj he
      refine ⟨List.nodup_singleton d, fun d' hd' => Or.inr ?_⟩
      rw [List.mem_singleton.1 hd']
      exact hkeep hd
    · obtain ⟨hnodup, hreason⟩ := hexplained i e he
      exact ⟨hnodup, fun d' hd' => (hreason d' hd').imp_right hkeep⟩
  · rw [hold] at he
    split at he
    · rename_i hij
      subst hij
      obtain ⟨e, hej, rfl⟩ := Option.map_eq_some_iff.1 he
      obtain ⟨hnodup, hreason⟩ := hexplained j e hej
      have hform : e.item.form = x.form := by
        rw [Chart.form?, Chart.item?, hej] at hj
        exact Option.some.inj hj
      refine ⟨Entry.nodup_addDerivation hnodup d, fun d' hd' => ?_⟩
      rw [Entry.mergeTrees, Entry.item_addDerivation]
      rcases Entry.mem_addDerivation.1 hd' with hd' | rfl
      · exact (hreason d' hd').imp_right hkeep
      · exact Or.inr (hform ▸ hkeep hd)
    · obtain ⟨hnodup, hreason⟩ := hexplained i e he
      exact ⟨hnodup, fun d' hd' => (hreason d' hd').imp_right hkeep⟩

/-- At the end of a run that keeps all derivations they are explained. -/
lemma isExplained_of_finalState (hpolicy : settings.policy = .accumulate)
    (hstable : schema.IsStable settings.policy) {fuel : ℕ}
    (h : finalState settings schema fuel = .ok t) : IsExplained schema t.chart := by
  refine chart_induction (P := IsExplained schema) hstable (fun s hs i e he => ?_)
    (fun s x d t hs hP hd ht => hP.merge hpolicy hstable hs hd ht) h
  obtain ⟨d, hd, heq⟩ := (holdsFirst_of_seed hs).derivations_eq i e he
  rw [heq]
  refine ⟨List.nodup_singleton d, fun d' hd' => Or.inl ?_⟩
  rw [List.mem_singleton.1 hd']
  exact hd

/-- The derivations by axioms are recorded at the end of such a run. -/
lemma recorded_of_axiomDerivation? (hpolicy : settings.policy = .accumulate) {fuel : ℕ}
    (h : finalState settings schema fuel = .ok t) {form : Form}
    (hd : schema.axiomDerivation? form = some d) :
    (Account.recorded W hpolicy).Covers t.chart d form := by
  obtain ⟨s, hseed, hdrain⟩ := finalState_eq_ok h
  refine Account.covers_of_drain (consistent_of_seed hseed).1 hdrain ?_
  have hholds := holdsFirst_of_seed hseed
  obtain ⟨a, ha, rfl⟩ := Option.map_eq_some_iff.1 hd
  have hform : a.2.form = form := by simpa using List.find?_some ha
  obtain ⟨i, hi⟩ := hholds.exists_form a (List.mem_of_find?_eq_some ha)
  obtain ⟨y, hy, hyform⟩ := Option.map_eq_some_iff.1 hi
  obtain ⟨e, he, rfl⟩ := Chart.item?_eq_some_iff.1 hy
  obtain ⟨d', hd', heq⟩ := hholds.derivations_eq i e he
  rw [hyform, hform] at hd'
  obtain rfl : (⟨a.1, []⟩ : Derivation) = d' := Option.some.inj (hd.symm.trans hd')
  exact ⟨i, e, he, hyform.trans hform, heq ▸ List.mem_singleton_self _⟩

/-- The entry of a form is the only one that can record its derivations. -/
lemma mem_derivations_of_recorded {hpolicy : settings.policy = .accumulate} {c : Chart W}
    (hc : c.Indexed) {i : ℕ} {e : Entry W} (he : c.entries[i]? = some e)
    (h : (Account.recorded W hpolicy).Covers c d e.item.form) : d ∈ e.derivations := by
  obtain ⟨j, e', he', hform, hd⟩ := h
  have hi : c.form? i = some e.item.form := by rw [Chart.form?, Chart.item?, he]; rfl
  have hj : c.form? j = some e.item.form := by rw [Chart.form?, Chart.item?, he', ← hform]; rfl
  obtain rfl := hc.eq_of_form hi hj
  obtain rfl : e = e' := Option.some.inj (he.symm.trans he')
  exact hd

/-- A run that keeps all derivations records, for every item of its chart, exactly the derivation by
the first axiom that gives the item, if one does, and those by rules that fire on items of the final
chart, at positions in increasing order. It records none of them twice. -/
theorem run_derivations_exact (hpolicy : settings.policy = .accumulate)
    (hrules : ∀ rule ∈ schema.rules, rule.IsUnambiguous) {fuel : ℕ} {o : Outcome W}
    (h : run settings schema fuel = .ok o) {i : ℕ} {e : Entry W}
    (he : o.chart.entries[i]? = some e) :
    e.derivations.Nodup ∧ ∀ d, d ∈ e.derivations ↔
      schema.axiomDerivation? e.item.form = some d ∨ o.chart.Justifies schema d e.item.form := by
  obtain ⟨t, ht, rfl⟩ := run_eq_ok h
  have hstable : schema.IsStable settings.policy :=
    fun rule hrule => ⟨hrules rule hrule, Or.inl hpolicy⟩
  obtain ⟨hnodup, hreason⟩ := isExplained_of_finalState hpolicy hstable ht i e he
  have hindexed := (consistent_of_finalState ht).1.indexed
  refine ⟨hnodup, fun d => ⟨hreason d, ?_⟩⟩
  rintro (hd | hd)
  · exact mem_derivations_of_recorded hindexed he (recorded_of_axiomDerivation? hpolicy ht hd)
  · exact mem_derivations_of_recorded hindexed he
      (covers_of_finalState (.recorded W hpolicy) hstable ht hd)

/-- A run on two spans records exactly the derivations of both together. -/
theorem exists_run_derivations_exact_twoSpans :
    ∃ fuel o, run ⟨.accumulate, none⟩ (Schema.twoSpans : Schema Float) fuel = .ok o ∧
      ∃ (i : ℕ) (e : Entry Float), o.chart.entries[i]? = some e ∧
        e.item.form = [.symbol "S", .index 0, .index 2] ∧ e.derivations.Nodup ∧
          ∀ d, d ∈ e.derivations ↔
            (Schema.twoSpans : Schema Float).axiomDerivation? e.item.form = some d ∨
              o.chart.Justifies (Schema.twoSpans : Schema Float) d e.item.form := by
  obtain ⟨fuel, o, h⟩ := exists_run_twoSpans (W := Float)
  refine ⟨fuel, o, h, ?_⟩
  obtain ⟨t, ht, rfl⟩ := run_eq_ok h
  have hclosed := isClosed_forms_of_finalState Schema.twoSpans_rules ht
  -- the two spans are in the chart, and so is what they say together
  have hspans : ∀ x ∈ [CykRule.item "A" 0 1 [], CykRule.item "B" 1 1 []],
      x.form ∈ t.chart.forms := fun x hx => hclosed.axioms_mem _ (List.mem_singleton_self _) x hx
  have hjoined : [.symbol "S", .index 0, .index 2] ∈ t.chart.forms :=
    hclosed.rules_mem (.cyk (.binary Schema.pairProduction)) (List.mem_singleton_self _) _
      ⟨_, [CykRule.item "S" 0 2 []]⟩ hspans (by decide) rfl _ (List.mem_singleton_self _)
  obtain ⟨e, he, hform⟩ := hjoined
  obtain ⟨i, hi⟩ := Array.mem_iff_getElem?.1 he
  exact ⟨i, e, hi, hform, run_derivations_exact rfl (fun rule hrule =>
    (Schema.twoSpans_rules rule hrule).2) h hi⟩

end Deduction

end DeductiveParsing
