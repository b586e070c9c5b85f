/-
How states grow while consequences are brought into the chart.

* `State.Consistent`: the chart is indexed, and what waits are positions of the chart, none twice;
* `MergeStep`: the ways in which a consequence changes a state;
* `State.Evolves`: what stays as it is, and what waits, when consequences are merged;
* `Grows`: any number of merges, of which all parts of an expansion consist.
-/
import DeductiveParsing.Deduction.Engine
import DeductiveParsing.Proofs.Deduction.Agenda
import DeductiveParsing.Proofs.Deduction.Chart
import DeductiveParsing.Proofs.Deduction.Folds

namespace DeductiveParsing

variable {W : Type}

/-- What of an item no later consequence changes: the form, and the weight as long as derivations
are only recorded beside one another. -/
def Policy.lasting (policy : Policy) (x : Item W) : Form × Option (Option W) :=
  (x.form, if policy = .accumulate then some x.weight else none)

lemma Policy.map_fst_lasting (policy : Policy) (o : Option (Item W)) :
    (o.map policy.lasting).map Prod.fst = o.map Item.form := by cases o <;> rfl

namespace Deduction

/-! ### Consistent states -/

namespace State

/-- Whether the chart of a state is indexed and its agenda holds positions of the chart, none of
them twice. -/
structure Consistent (s : State W) : Prop where
  indexed : s.chart.Indexed
  agenda : s.agenda.Consistent
  waiting_lt : ∀ i ∈ s.agenda.toList, i < s.chart.size

lemma consistent_empty : (empty : State W).Consistent :=
  ⟨Chart.indexed_empty, Agenda.consistent_empty, by simp [empty, Agenda.empty, Agenda.toList]⟩

/-- A changed chart of the same size stays consistent with the agenda, even if one of its positions
is to wait. -/
lemma Consistent.requeue {s : State W} (h : s.Consistent) {c : Chart W} (hc : c.Indexed)
    (hsize : s.chart.size ≤ c.size) {i : ℕ} (hi : i < c.size) :
    (State.requeue ⟨c, s.agenda⟩ i).Consistent := by
  refine ⟨hc, h.agenda.add i, fun j hj => ?_⟩
  rcases (Agenda.mem_add h.agenda).1 hj with hj | rfl
  · exact (h.waiting_lt j hj).trans_le hsize
  · exact hi

/-- Taking a position off the agenda leaves a consistent state. -/
lemma Consistent.pop {s : State W} {first : ℕ} {agenda : Agenda} (hs : s.Consistent)
    (hnext : s.agenda.next? = some (first, agenda)) :
    (⟨s.chart, agenda⟩ : State W).Consistent := by
  refine ⟨hs.indexed, hs.agenda.next? hnext, fun i hi => hs.waiting_lt i ?_⟩
  rw [Agenda.toList_of_next? hnext]
  exact List.mem_cons_of_mem _ hi

/-! ### One merge -/

lemma chart_accumulate (s : State W) (i : ℕ) (x : Item W) (d : Derivation) :
    (s.accumulate i x d).chart = (s.chart.addDerivation i d).mergeTrees i x.trees := by
  rw [accumulate]
  split <;> rfl

lemma agenda_accumulate (s : State W) (i : ℕ) (x : Item W) (d : Derivation) :
    (s.accumulate i x d).agenda =
      if s.chart.treeCount i < (s.accumulate i x d).chart.treeCount i then s.agenda.add i
      else s.agenda := by
  rw [chart_accumulate, accumulate]
  split <;> rfl

lemma size_accumulate (s : State W) (i : ℕ) (x : Item W) (d : Derivation) :
    (s.accumulate i x d).chart.size = s.chart.size := by
  rw [chart_accumulate, Chart.mergeTrees, Chart.size_modify, Chart.addDerivation, Chart.size_modify]

/-- Recording a derivation changes the derivations and the trees at one position. -/
lemma entries_accumulate (s : State W) (i : ℕ) (x : Item W) (d : Derivation) (j : ℕ) :
    (s.accumulate i x d).chart.entries[j]? =
      if i = j then (s.chart.entries[j]?).map fun e => (e.addDerivation d).mergeTrees x.trees
      else s.chart.entries[j]? := by
  rw [chart_accumulate, Chart.mergeTrees, Chart.entries_modify, Chart.addDerivation,
    Chart.entries_modify]
  split
  · rw [Option.map_map]
    rfl
  · rfl

lemma item?_accumulate (s : State W) (i : ℕ) (x : Item W) (d : Derivation) (j : ℕ) :
    (s.accumulate i x d).chart.item? j =
      if i = j then
        (s.chart.item? j).map fun y => { y with trees := Forest.merge y.trees x.trees }
      else s.chart.item? j := by
  rw [Chart.item?, entries_accumulate, Chart.item?]
  split
  · cases s.chart.entries[j]? with
    | none => rfl
    | some e => simp [Entry.mergeTrees]
  · rfl

end State

/-- The ways in which a consequence changes a state: it is new, or it is recorded beside the other
derivations, or it takes the place of the entry, or it is given up. -/
inductive MergeStep (settings : Settings) (s : State W) (x : Item W) (d : Derivation) :
    State W → Prop where
  | insert (hnew : s.chart.position? x = none) :
      MergeStep settings s x d (State.requeue ⟨s.chart.push x d, s.agenda⟩ s.chart.size)
  | accumulate {i : ℕ} (hpolicy : settings.policy = .accumulate)
      (hold : s.chart.position? x = some i) : MergeStep settings s x d (s.accumulate i x d)
  | replace {i : ℕ} (hpolicy : settings.policy ≠ .accumulate)
      (hold : s.chart.position? x = some i) :
      MergeStep settings s x d (State.requeue ⟨s.chart.replace i x d, s.agenda⟩ i)
  | keep {i : ℕ} (hpolicy : settings.policy ≠ .accumulate)
      (hold : s.chart.position? x = some i) : MergeStep settings s x d s

lemma State.insert_eq_ok {settings : Settings} {s t : State W} {x : Item W} {d : Derivation}
    (h : s.insert settings x d = .ok t) :
    t = State.requeue ⟨s.chart.push x d, s.agenda⟩ s.chart.size := by
  rw [State.insert] at h
  split at h
  · cases h
  · exact (Except.ok.inj h).symm

lemma MergeStep.of_improve [Weight W] {settings : Settings} {s : State W} {x : Item W}
    {d : Derivation} {i : ℕ} {policy : Policy} (hpolicy : settings.policy ≠ .accumulate)
    (hold : s.chart.position? x = some i) :
    MergeStep settings s x d (s.improve policy i x d) := by
  rw [State.improve]
  split
  · exact MergeStep.replace hpolicy hold
  · exact MergeStep.keep hpolicy hold

lemma MergeStep.of_merge [Weight W] {settings : Settings} {s t : State W} {x : Item W}
    {d : Derivation} (h : s.merge settings x d = .ok t) : MergeStep settings s x d t := by
  rw [State.merge] at h
  split at h
  · rename_i hnew
    rw [State.insert_eq_ok h]
    exact MergeStep.insert hnew
  · rename_i i hold
    split at h
    · rename_i hpolicy
      rw [← Except.ok.inj h]
      exact MergeStep.accumulate hpolicy hold
    · rename_i hpolicy
      rw [← Except.ok.inj h]
      exact MergeStep.of_improve hpolicy hold

lemma MergeStep.of_seedItem {settings : Settings} {name : String} {s t : State W} {x : Item W}
    (h : seedItem settings name s x = .ok t) :
    (s.chart.position? x = none ∧ MergeStep settings s x ⟨name, []⟩ t) ∨
      ((∃ i, s.chart.position? x = some i) ∧ t = s) := by
  rw [seedItem] at h
  split at h
  · rename_i i hold
    exact Or.inr ⟨⟨i, hold⟩, (Except.ok.inj h).symm⟩
  · rename_i hnew
    rw [State.insert_eq_ok h]
    exact Or.inl ⟨hnew, MergeStep.insert hnew⟩

lemma MergeStep.consistent {settings : Settings} {s t : State W} {x : Item W} {d : Derivation}
    (h : MergeStep settings s x d t) (hs : s.Consistent) : t.Consistent := by
  cases h with
  | insert hnew =>
      exact hs.requeue (hs.indexed.push d hnew) (by simp) (by simp)
  | keep => exact hs
  | replace hpolicy hold =>
      have hform := hs.indexed.position?_eq_some.1 hold
      have hindexed : (s.chart.replace _ x d).Indexed := hs.indexed.modify fun e he => by
        rw [Chart.form?, Chart.item?, he] at hform
        exact (Option.some.inj hform).symm
      exact hs.requeue hindexed (by simp [Chart.replace])
        (by simpa [Chart.replace] using Chart.lt_size_of_form? hform)
  | @accumulate i hpolicy hold =>
      have hform := hs.indexed.position?_eq_some.1 hold
      have hindexed : (s.accumulate i x d).chart.Indexed := by
        rw [State.chart_accumulate]
        exact Chart.Indexed.modify (Chart.Indexed.modify hs.indexed fun e _ => by simp)
          fun _ _ => rfl
      have hsize := s.size_accumulate i x d
      have hi := Chart.lt_size_of_form? hform
      rw [State.accumulate, ← State.chart_accumulate]
      split
      · exact hs.requeue hindexed hsize.ge (hsize ▸ hi)
      · exact ⟨hindexed, hs.agenda, fun j hj => hsize ▸ hs.waiting_lt j hj⟩

/-! ### What stays -/

/-- What holds of every state that a state grows into: nothing leaves the chart or stops waiting,
what is lasting about items stays, and new items wait. -/
structure State.Evolves (policy : Policy) (s t : State W) : Prop where
  size_le : s.chart.size ≤ t.chart.size
  lasting : ∀ i < s.chart.size,
    (t.chart.item? i).map policy.lasting = (s.chart.item? i).map policy.lasting
  waits : ∀ i ∈ s.agenda.toList, i ∈ t.agenda.toList
  fresh_waits : ∀ i, s.chart.size ≤ i → i < t.chart.size → i ∈ t.agenda.toList

namespace State.Evolves

variable {policy : Policy} {s t u : State W}

lemma refl (s : State W) : Evolves policy s s :=
  ⟨le_rfl, fun _ _ => rfl, fun _ => id, fun i h h' => absurd h' (by omega)⟩

lemma trans (h : Evolves policy s t) (h' : Evolves policy t u) : Evolves policy s u := by
  refine ⟨h.size_le.trans h'.size_le, fun i hi => ?_, fun i hi => h'.waits i (h.waits i hi),
    fun i hi hi' => ?_⟩
  · rw [h'.lasting i (hi.trans_le h.size_le), h.lasting i hi]
  · by_cases hit : i < t.chart.size
    · exact h'.waits i (h.fresh_waits i hi hit)
    · exact h'.fresh_waits i (by omega) hi'

/-- Forms stay where they are. -/
lemma form? (h : Evolves policy s t) {i : ℕ} (hi : i < s.chart.size) :
    t.chart.form? i = s.chart.form? i := by
  have hfst := congrArg (Option.map Prod.fst) (h.lasting i hi)
  rwa [Policy.map_fst_lasting, Policy.map_fst_lasting] at hfst

lemma form?_eq_some (h : Evolves policy s t) {i : ℕ} {form : Form}
    (hi : s.chart.form? i = some form) : t.chart.form? i = some form :=
  (h.form? (Chart.lt_size_of_form? hi)).trans hi

end State.Evolves

lemma MergeStep.evolves {settings : Settings} {s t : State W} {x : Item W} {d : Derivation}
    (h : MergeStep settings s x d t) (hs : s.Consistent) : s.Evolves settings.policy t := by
  have hadd : ∀ i j, j ∈ s.agenda.toList → j ∈ (s.agenda.add i).toList :=
    fun i j hj => (Agenda.mem_add hs.agenda).2 (Or.inl hj)
  cases h with
  | insert hnew =>
      refine ⟨by simp [State.requeue], fun i hi => ?_, hadd _, fun i hi hi' => ?_⟩
      · rw [State.requeue, Chart.item?_push, if_neg (by omega)]
      · simp only [State.requeue, Chart.size_push] at hi'
        exact (Agenda.mem_add hs.agenda).2 (Or.inr (by omega))
  | keep => exact .refl s
  | @replace i hpolicy hold =>
      have hform := hs.indexed.position?_eq_some.1 hold
      refine ⟨by simp [State.requeue, Chart.replace], fun j hj => ?_, hadd _, fun j hj hj' => ?_⟩
      · -- the new item has the form of the old one, and nothing more has to stay
        rw [State.requeue, Chart.replace, Chart.item?, Chart.entries_modify]
        split
        · rename_i hij
          subst hij
          obtain ⟨y, hy, hyx⟩ := Option.map_eq_some_iff.1 hform
          obtain ⟨e, he, rfl⟩ := Chart.item?_eq_some_iff.1 hy
          simp [Chart.item?, he, Policy.lasting, hpolicy, hyx]
        · rfl
      · simp only [State.requeue, Chart.replace, Chart.size_modify] at hj'
        omega
  | @accumulate i hpolicy hold =>
      have hsize := s.size_accumulate i x d
      refine ⟨hsize.ge, fun j hj => ?_, fun j hj => ?_, fun j hj hj' => by omega⟩
      · rw [State.item?_accumulate]
        split
        · cases s.chart.item? j <;> rfl
        · rfl
      · rw [State.agenda_accumulate]
        split
        · exact hadd i j hj
        · exact hj

/-- A merge brings no other form into the chart than that of the consequence. -/
lemma MergeStep.form?_cases {settings : Settings} {s t : State W} {x : Item W} {d : Derivation}
    (h : MergeStep settings s x d t) (hs : s.Consistent) {i : ℕ}
    {form : Form} (hi : t.chart.form? i = some form) :
    s.chart.form? i = some form ∨ form = x.form := by
  by_cases hold : i < s.chart.size
  · rw [(h.evolves hs).form? hold] at hi
    exact Or.inl hi
  · cases h with
    | insert hnew =>
        rw [State.requeue, Chart.form?, Chart.item?_push] at hi
        split at hi
        · exact Or.inr (Option.some.inj hi).symm
        · exact Or.inl hi
    | keep => exact Or.inl hi
    | replace =>
        refine absurd (Chart.lt_size_of_form? hi) ?_
        simpa [State.requeue, Chart.replace] using hold
    | accumulate =>
        refine absurd (Chart.lt_size_of_form? hi) ?_
        rwa [State.size_accumulate]

/-- A merge brings the form of the consequence into the chart, unless it is there. -/
lemma MergeStep.exists_form {settings : Settings} {s t : State W} {x : Item W} {d : Derivation}
    (h : MergeStep settings s x d t) (hs : s.Consistent) :
    ∃ i, t.chart.form? i = some x.form := by
  have hevolves := h.evolves hs
  have hold : ∀ {i}, s.chart.position? x = some i → ∃ i, t.chart.form? i = some x.form :=
    fun hi => ⟨_, hevolves.form?_eq_some (hs.indexed.position?_eq_some.1 hi)⟩
  cases h with
  | insert hnew =>
      refine ⟨s.chart.size, ?_⟩
      rw [State.requeue, Chart.form?, Chart.item?_push, if_pos rfl]
      rfl
  | accumulate _ hi => exact hold hi
  | replace _ hi => exact hold hi
  | keep _ hi => exact hold hi

/-! ### Expansions -/

section Expansions

variable [Weight W] {settings : Settings} {s t : State W}

/-- A state grows into another one by merging consequences. -/
def Grows (settings : Settings) : State W → State W → Prop :=
  Relation.ReflTransGen fun s t => ∃ x d, s.merge settings x d = .ok t

lemma Grows.consistent_and_evolves (h : Grows settings s t) (hs : s.Consistent) :
    t.Consistent ∧ s.Evolves settings.policy t := by
  induction h with
  | refl => exact ⟨hs, .refl s⟩
  | tail _ hstep ih =>
      obtain ⟨x, d, hmerge⟩ := hstep
      have hstep := MergeStep.of_merge hmerge
      exact ⟨hstep.consistent ih.1, ih.2.trans (hstep.evolves ih.1)⟩

lemma Grows.of_foldlM {α : Type} {f : State W → α → Except Failure (State W)} {l : List α}
    (h : l.foldlM f s = .ok t) (hstep : ∀ s x t, f s x = .ok t → Grows settings s t) :
    Grows settings s t :=
  foldlM_induction h .refl fun s x t _ hs hx => hs.trans (hstep s x t hx)

lemma Grows.of_merges {items : List (Item W)} {d : Derivation}
    (h : items.foldlM (fun s x => s.merge settings x d) s = .ok t) : Grows settings s t :=
  .of_foldlM h fun _ x _ hx => .single ⟨x, d, hx⟩

/-- A rule does not fire at given positions, or all its consequences are merged. -/
lemma State.applyAt_cases {rule : Rule W} {positions : List ℕ}
    (h : s.applyAt settings rule positions = .ok t) :
    ((positions.mapM s.chart.item?).bind rule.fire? = none ∧ t = s) ∨
      ∃ xs f, positions.mapM s.chart.item? = some xs ∧ rule.fire? xs = some f ∧
        f.items.foldlM (fun s x => s.merge settings x ⟨f.name, positions.mergeSort⟩) s = .ok t := by
  rw [State.applyAt] at h
  split at h
  · rename_i hnone
    exact Or.inl ⟨hnone, (Except.ok.inj h).symm⟩
  · rename_i f hsome
    obtain ⟨xs, hxs, hf⟩ := Option.bind_eq_some_iff.1 hsome
    exact Or.inr ⟨xs, f, hxs, hf, h⟩

lemma Grows.of_applyAt {rule : Rule W} {positions : List ℕ}
    (h : s.applyAt settings rule positions = .ok t) : Grows settings s t := by
  rcases State.applyAt_cases h with ⟨-, rfl⟩ | ⟨_, _, -, -, hfold⟩
  · exact .refl
  · exact .of_merges hfold

lemma Grows.of_applyRule {rule : Rule W} {first : ℕ}
    (h : State.applyRule settings first s rule = .ok t) : Grows settings s t := by
  rw [State.applyRule] at h
  split at h
  · rw [Except.ok.inj h]
    exact .refl
  · exact .of_foldlM h fun _ _ _ hx => .of_applyAt hx

lemma Grows.of_expand {schema : Schema W} {first : ℕ}
    (h : State.expand settings schema first s = .ok t) : Grows settings s t :=
  .of_foldlM h fun _ _ _ hx => .of_applyRule hx

end Expansions

end Deduction

end DeductiveParsing
