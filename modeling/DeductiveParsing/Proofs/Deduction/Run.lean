/-
Runs from the axioms to the end.

* `Schema.axiomItems`: the items of all axioms in order;
* `seed_induction`, `drain_induction`: the two phases of a run;
* `chart_induction`: what axioms establish and merges of justified consequences preserve holds of
  the chart at the end;
* `covers_of_finalState`: at the end everything that is justified is on the account.
-/
import DeductiveParsing.Deduction.Outcome
import DeductiveParsing.Proofs.Deduction.Saturation

namespace DeductiveParsing

variable {W : Type}

/-- The items of all axioms in the order in which they are put into the chart, each with the name of
its axiom. -/
def Schema.axiomItems (schema : Schema W) : List (String × Item W) :=
  schema.axioms.flatMap fun a => a.items.map fun x => (a.name, x)

lemma Schema.mem_axiomItems {schema : Schema W} {name : String} {x : Item W} :
    (name, x) ∈ schema.axiomItems ↔ ∃ a ∈ schema.axioms, a.name = name ∧ x ∈ a.items := by
  simp only [axiomItems, List.mem_flatMap, List.mem_map, Prod.mk.injEq]
  constructor
  · rintro ⟨a, ha, y, hy, rfl, rfl⟩
    exact ⟨a, ha, rfl, hy⟩
  · rintro ⟨a, ha, rfl, hx⟩
    exact ⟨a, ha, x, hx, rfl, rfl⟩

namespace Deduction

variable {settings : Settings} {schema : Schema W} {s t : State W}

/-! ### Axioms -/

lemma seed_eq (settings : Settings) (schema : Schema W) :
    seed settings schema =
      schema.axiomItems.foldlM (fun s a => seedItem settings a.1 s a.2) .empty := by
  have hfold : ∀ (axioms : List (Axiom W)) (s : State W),
      axioms.foldlM (fun s a => a.items.foldlM (seedItem settings a.name) s) s =
        (axioms.flatMap fun a => a.items.map fun x => (a.name, x)).foldlM
          (fun s a => seedItem settings a.1 s a.2) s := by
    intro axioms
    induction axioms with
    | nil => exact fun s => rfl
    | cons a axioms ih =>
        intro s
        rw [List.flatMap_cons, List.foldlM_append, List.foldlM_cons, List.foldlM_map]
        exact congrArg _ (funext ih)
  exact hfold schema.axioms .empty

/-- What holds of the empty state and is preserved by the items of axioms holds behind them. -/
lemma seed_induction {P : State W → Prop} (h : seed settings schema = .ok s) (h0 : P .empty)
    (hstep : ∀ s name x t, (name, x) ∈ schema.axiomItems → P s →
      seedItem settings name s x = .ok t → P t) : P s := by
  rw [seed_eq] at h
  exact foldlM_induction h h0 fun s a t ha hs ht => hstep s a.1 a.2 t ha hs ht

lemma evolves_of_seedItems {l : List (String × Item W)} (hs : s.Consistent)
    (h : l.foldlM (fun s a => seedItem settings a.1 s a.2) s = .ok t) :
    t.Consistent ∧ s.Evolves settings.policy t := by
  refine foldlM_induction (P := fun u => u.Consistent ∧ s.Evolves settings.policy u) h
    ⟨hs, .refl s⟩ fun u a v _ hu hv => ?_
  rcases MergeStep.of_seedItem hv with ⟨-, hstep⟩ | ⟨-, rfl⟩
  · exact ⟨hstep.consistent hu.1, hu.2.trans (hstep.evolves hu.1)⟩
  · exact hu

/-- The axioms lead to a consistent state in which every position waits. -/
lemma consistent_of_seed (h : seed settings schema = .ok s) :
    s.Consistent ∧ ∀ i < s.chart.size, i ∈ s.agenda.toList := by
  rw [seed_eq] at h
  obtain ⟨hconsistent, hevolves⟩ := evolves_of_seedItems State.consistent_empty h
  exact ⟨hconsistent, fun i hi => hevolves.fresh_waits i (Nat.zero_le i) hi⟩

/-- The forms of axioms are in the chart. -/
lemma exists_form_of_seed (h : seed settings schema = .ok s) {name : String} {x : Item W}
    (hx : (name, x) ∈ schema.axiomItems) : ∃ i, s.chart.form? i = some x.form := by
  rw [seed_eq] at h
  obtain ⟨before, behind, u, v, -, hbefore, hstep, hbehind⟩ := exists_step_of_foldlM h hx
  obtain ⟨hu, -⟩ := evolves_of_seedItems State.consistent_empty hbefore
  obtain ⟨i, hi, hv⟩ : ∃ i, v.chart.form? i = some x.form ∧ v.Consistent := by
    rcases MergeStep.of_seedItem hstep with ⟨hnew, hmerge⟩ | ⟨⟨i, hi⟩, rfl⟩
    · refine ⟨u.chart.size, ?_, hmerge.consistent hu⟩
      simp only [seedItem, hnew] at hstep
      rw [State.insert_eq_ok hstep, State.requeue, Chart.form?, Chart.item?_push, if_pos rfl]
      rfl
    · exact ⟨i, hu.indexed.position?_eq_some.1 hi, hu⟩
  exact ⟨i, (evolves_of_seedItems hv hbehind).2.form?_eq_some hi⟩

/-! ### Expansions up to the end -/

variable [Weight W]

/-- What every expansion preserves holds at the end, where nothing waits. -/
lemma drain_induction {P : State W → Prop} {fuel : ℕ} (h : drain settings schema fuel s = .ok t)
    (hs : P s)
    (hstep : ∀ s first agenda t, P s → s.agenda.next? = some (first, agenda) →
      State.expand settings schema first ⟨s.chart, agenda⟩ = .ok t → P t) :
    P t ∧ t.agenda.toList = [] := by
  induction fuel generalizing s with
  | zero =>
      rw [drain] at h
      split at h
      · rename_i hnone
        obtain rfl := Except.ok.inj h
        exact ⟨hs, Agenda.toList_of_next?_eq_none hnone⟩
      · cases h
  | succ fuel ih =>
      rw [drain] at h
      split at h
      · rename_i hnone
        obtain rfl := Except.ok.inj h
        exact ⟨hs, Agenda.toList_of_next?_eq_none hnone⟩
      · rename_i first agenda hnext
        split at h
        · rename_i u hexpand
          exact ih h (hstep s first agenda u hs hnext hexpand)
        · cases h

lemma finalState_eq_ok {fuel : ℕ} (h : finalState settings schema fuel = .ok t) :
    ∃ s, seed settings schema = .ok s ∧ drain settings schema fuel s = .ok t := by
  rw [finalState] at h
  split at h
  · rename_i s hs
    exact ⟨s, hs, h⟩
  · cases h

lemma run_eq_ok {fuel : ℕ} {o : Outcome W} (h : run settings schema fuel = .ok o) :
    ∃ t, finalState settings schema fuel = .ok t ∧ o = .ofChart schema.goals t.chart := by
  rw [run] at h
  cases ht : finalState settings schema fuel with
  | error failure =>
      rw [ht] at h
      cases h
  | ok t =>
      rw [ht] at h
      exact ⟨t, rfl, (Except.ok.inj h).symm⟩

/-- The last state of a run is consistent and nothing waits in it. -/
lemma consistent_of_finalState {fuel : ℕ} (h : finalState settings schema fuel = .ok t) :
    t.Consistent ∧ t.agenda.toList = [] := by
  obtain ⟨s, hseed, hdrain⟩ := finalState_eq_ok h
  refine drain_induction (P := State.Consistent) hdrain (consistent_of_seed hseed).1
    fun s first agenda t hs hnext ht => ?_
  exact ((Grows.of_expand ht).consistent_and_evolves (hs.pop hnext)).1

/-- What holds of the chart behind the axioms and is preserved by merges of justified consequences
holds of the chart at the end. -/
theorem chart_induction {P : Chart W → Prop} (hstable : schema.IsStable settings.policy)
    (hseed : ∀ s : State W, seed settings schema = .ok s → P s.chart)
    (hmerge : ∀ (s : State W) x d (t : State W), s.Consistent → P s.chart →
      s.chart.Justifies schema d x.form → s.merge settings x d = .ok t → P t.chart)
    {fuel : ℕ} (h : finalState settings schema fuel = .ok t) : P t.chart := by
  obtain ⟨s, hs, hdrain⟩ := finalState_eq_ok h
  refine (drain_induction (P := fun s => s.Consistent ∧ P s.chart) hdrain
    ⟨(consistent_of_seed hs).1, hseed s hs⟩ ?_).1.2
  rintro s first agenda t ⟨hs, hP⟩ hnext ht
  have hpop := hs.pop hnext
  refine ⟨((Grows.of_expand ht).consistent_and_evolves hpop).1, ?_⟩
  exact expand_induction (P := fun s => P s.chart) hstable hmerge hpop hP ht

/-- What is on the account behind the axioms stays there up to the end. -/
lemma Account.covers_of_drain {account : Account W settings} {fuel : ℕ} (hs : s.Consistent)
    (h : drain settings schema fuel s = .ok t) {d : Derivation} {form : Form}
    (hd : account.Covers s.chart d form) : account.Covers t.chart d form := by
  refine (drain_induction (P := fun s => s.Consistent ∧ account.Covers s.chart d form) h
    ⟨hs, hd⟩ ?_).1.2
  rintro s first agenda t ⟨hs, hd⟩ hnext ht
  have hpop := hs.pop hnext
  exact ⟨((Grows.of_expand ht).consistent_and_evolves hpop).1,
    covers_of_grows hpop (.of_expand ht) hd⟩

/-- At the end of a run everything that is justified is on the account. -/
theorem covers_of_finalState (account : Account W settings)
    (hstable : schema.IsStable settings.policy) {fuel : ℕ}
    (h : finalState settings schema fuel = .ok t) {d : Derivation} {form : Form}
    (hd : t.chart.Justifies schema d form) : account.Covers t.chart d form := by
  obtain ⟨s, hseed, hdrain⟩ := finalState_eq_ok h
  obtain ⟨hconsistent, hwaits⟩ := consistent_of_seed hseed
  -- behind the axioms every position waits, and a justification has a position
  have hsettled : Settled account schema s := by
    intro d form hd hnone
    have hlt := hd.lt_size
    obtain ⟨-, rule, -, xs, f, hxs, hf, -⟩ := hd
    cases hpositions : d.antecedents with
    | nil =>
        rw [hpositions] at hxs
        have hnil : xs = [] := by simpa using hxs.symm
        have hlength := (Rule.fire?_eq_some.1 hf).1
        have hpos := rule.arity_pos
        rw [hnil, List.length_nil] at hlength
        omega
    | cons i positions =>
        have hi : i ∈ d.antecedents := by
          rw [hpositions]
          exact List.mem_cons_self
        exact absurd (hwaits i (hlt i hi)) (hnone i hi)
  obtain ⟨⟨-, hsettled⟩, hnil⟩ := drain_induction
    (P := fun s => s.Consistent ∧ Settled account schema s) hdrain ⟨hconsistent, hsettled⟩ (by
      rintro s first agenda t ⟨hs, hsettled⟩ hnext ht
      exact ⟨((Grows.of_expand ht).consistent_and_evolves (hs.pop hnext)).1,
        settled_expand hstable hs hsettled hnext ht⟩)
  exact hsettled d form hd fun i _ hi => by simp [hnil] at hi

end Deduction

end DeductiveParsing
