/-
What every moment of a run keeps in order.

* `Chart.Supports`: a derivation stands for an axiom or for a rule that fires;
* `Chart.Records`: what holds of the derivations of an entry, `MergeStep.records`: merges keep it;
* `Chart.Proves`: a finite proof from axioms is read off the first derivations;
* `isOrderly_of_reaches`: chart, index, derivations and agenda are in order at every moment, and
  forms stay where they are.
-/
import DeductiveParsing.Proofs.Deduction.Closure
import DeductiveParsing.Proofs.Deduction.Moments

namespace DeductiveParsing

variable {W : Type} [Weight W]

/-! ### Reasons of derivations -/

/-- Whether a derivation has a reason: an axiom gives an item of the form, or a rule concludes one,
under the name that the derivation gives, from items with the forms at its positions. -/
def Chart.Supports (c : Chart W) (schema : Schema W) (d : Derivation) (form : Form) : Prop :=
  (d.antecedents = [] ∧ ∃ x, (d.rule, x) ∈ schema.axiomItems ∧ x.form = form) ∨
    ∃ rule ∈ schema.rules, ∃ xs f, rule.fire? xs = some f ∧ f.name = d.rule ∧
      form ∈ f.items.map Item.form ∧ (d.antecedents.map c.form?).Perm (xs.map fun x => some x.form)

/-- The derivations of an entry: there is one, none is recorded twice, only one is kept unless all
are, each has a reason at positions of the chart in strictly increasing order, and the first one, if
all are kept, only at positions before that of the entry. -/
structure Chart.Records (c : Chart W) (settings : Settings) (schema : Schema W) (i : ℕ)
    (e : Entry W) : Prop where
  ne_nil : e.derivations ≠ []
  nodup : e.derivations.Nodup
  unique : settings.policy ≠ .accumulate → ∃ d, e.derivations = [d]
  sorted : ∀ d ∈ e.derivations, d.antecedents.Pairwise (· < ·)
  lt_size : ∀ d ∈ e.derivations, ∀ j ∈ d.antecedents, j < c.size
  supported : ∀ d ∈ e.derivations, c.Supports schema d e.item.form
  earlier : settings.policy = .accumulate → ∀ d, e.derivations.head? = some d →
    ∀ j ∈ d.antecedents, j < i

/-- Whether the first derivations that are recorded make up a finite proof of the entry at a
position. -/
inductive Chart.Proves (c : Chart W) (schema : Schema W) : ℕ → Prop
  | intro {i : ℕ} {e : Entry W} {d : Derivation} (he : c.entries[i]? = some e)
      (hd : e.derivations.head? = some d) (hreason : c.Supports schema d e.item.form)
      (hantecedents : ∀ j ∈ d.antecedents, Proves c schema j) : Proves c schema i

variable {settings : Settings} {schema : Schema W} {c c' : Chart W} {d : Derivation} {form : Form}
  {i : ℕ} {e : Entry W} {x : Item W}

lemma Chart.Supports.lt_size (h : c.Supports schema d form) : ∀ j ∈ d.antecedents, j < c.size := by
  intro j hj
  rcases h with ⟨hnil, -⟩ | ⟨-, -, xs, -, -, -, -, hperm⟩
  · simp [hnil] at hj
  · obtain ⟨x, -, hx⟩ := List.mem_map.1 (hperm.subset (List.mem_map_of_mem hj))
    exact Chart.lt_size_of_form? hx.symm

/-- A reason stays a reason as long as forms stay where they are. -/
lemma Chart.Supports.of_forms (h : c.Supports schema d form)
    (hforms : ∀ i < c.size, c'.form? i = c.form? i) : c'.Supports schema d form := by
  have hlt := h.lt_size
  rcases h with h | ⟨rule, hrule, xs, f, hf, hname, hform, hperm⟩
  · exact Or.inl h
  · have hsame : d.antecedents.map c'.form? = d.antecedents.map c.form? :=
      List.map_congr_left fun i hi => hforms i (hlt i hi)
    exact Or.inr ⟨rule, hrule, xs, f, hf, hname, hform, hsame ▸ hperm⟩

lemma Chart.supports_of_fire {rule : Rule W} (hrule : rule ∈ schema.rules) {positions : List ℕ}
    {xs : List (Item W)} {f : Firing W} (hxs : positions.map c.item? = xs.map some)
    (hf : rule.fire? xs = some f) (hx : x ∈ f.items) :
    c.Supports schema ⟨f.name, positions.mergeSort⟩ x.form := by
  refine Or.inr ⟨rule, hrule, xs, f, hf, rfl, List.mem_map_of_mem hx, ?_⟩
  have hforms := Chart.map_form? hxs
  rw [List.map_map] at hforms
  exact ((List.mergeSort_perm positions _).map c.form?).trans (.of_eq hforms)

lemma Chart.Records.of_forms (h : c.Records settings schema i e) (hsize : c.size ≤ c'.size)
    (hforms : ∀ i < c.size, c'.form? i = c.form? i) : c'.Records settings schema i e :=
  { h with
    lt_size := fun d hd j hj => (h.lt_size d hd j hj).trans_le hsize
    supported := fun d hd => (h.supported d hd).of_forms hforms }

/-- An entry with a single derivation is in order if that is. -/
lemma Chart.records_singleton (hd : c.Supports schema d x.form)
    (hsorted : d.antecedents.Pairwise (· < ·))
    (hearlier : settings.policy = .accumulate → ∀ j ∈ d.antecedents, j < i) :
    c.Records settings schema i ⟨x, [d]⟩ where
  ne_nil := List.cons_ne_nil _ _
  nodup := List.nodup_singleton d
  unique _ := ⟨d, rfl⟩
  sorted _ hd' := List.mem_singleton.1 hd' ▸ hsorted
  lt_size _ hd' := List.mem_singleton.1 hd' ▸ hd.lt_size
  supported _ hd' := List.mem_singleton.1 hd' ▸ hd
  earlier hpolicy _ hd' := Option.some.inj hd' ▸ hearlier hpolicy

/-- Recording one more derivation leaves an entry in order, and its first derivation first. -/
lemma Chart.Records.addDerivation (h : c.Records settings schema i e)
    (hpolicy : settings.policy = .accumulate) (hd : c.Supports schema d e.item.form)
    (hsorted : d.antecedents.Pairwise (· < ·)) :
    c.Records settings schema i (e.addDerivation d) := by
  have hmem : ∀ {P : Derivation → Prop}, (∀ d' ∈ e.derivations, P d') → P d →
      ∀ d' ∈ (e.addDerivation d).derivations, P d' := by
    intro P hold hnew d' hd'
    rcases Entry.mem_addDerivation.1 hd' with hd' | rfl
    · exact hold d' hd'
    · exact hnew
  have hhead : (e.addDerivation d).derivations.head? = e.derivations.head? := by
    rw [Entry.addDerivation]
    split
    · rfl
    · exact List.head?_append_of_ne_nil _ h.ne_nil
  refine ⟨fun hnil => ?_, Entry.nodup_addDerivation h.nodup d, absurd hpolicy,
    hmem h.sorted hsorted, hmem h.lt_size hd.lt_size, ?_, ?_⟩
  · exact h.ne_nil (List.head?_eq_none_iff.1 (hhead ▸ List.head?_eq_none_iff.2 hnil))
  · rw [Entry.item_addDerivation]
    exact hmem h.supported hd
  · rw [hhead]
    exact h.earlier

/-- If the first derivations go back to earlier positions, they make up proofs of all entries. -/
lemma Chart.proves_of_records (hpolicy : settings.policy = .accumulate)
    (hrecords : ∀ (i : ℕ) (e : Entry W), c.entries[i]? = some e → c.Records settings schema i e)
    (hi : i < c.size) : c.Proves schema i := by
  induction i using Nat.strong_induction_on with
  | _ i ih =>
      have he : c.entries[i]? = some c.entries[i] := Array.getElem?_eq_getElem hi
      have hrecord := hrecords i _ he
      cases hhead : c.entries[i].derivations.head? with
      | none => exact absurd (List.head?_eq_none_iff.1 hhead) hrecord.ne_nil
      | some d =>
          have hd := List.mem_of_head? hhead
          exact .intro he hhead (hrecord.supported d hd) fun j hj =>
            ih j (hrecord.earlier hpolicy d hhead j hj) (hrecord.lt_size d hd j hj)

namespace Deduction

variable {s t : State W} {m : Moment W}

/-! ### What steps preserve -/

/-- Merging a consequence that has a reason leaves all entries in order. -/
lemma MergeStep.records (h : MergeStep settings s x d t) (hs : s.Consistent)
    (hd : s.chart.Supports schema d x.form) (hsorted : d.antecedents.Pairwise (· < ·))
    (hrecords : ∀ i e, s.chart.entries[i]? = some e → s.chart.Records settings schema i e) :
    ∀ i e, t.chart.entries[i]? = some e → t.chart.Records settings schema i e := by
  have hevolves := h.evolves hs
  have hforms : ∀ i < s.chart.size, t.chart.form? i = s.chart.form? i := fun i => hevolves.form?
  suffices hold : ∀ i e, t.chart.entries[i]? = some e → s.chart.Records settings schema i e from
    fun i e he => (hold i e he).of_forms hevolves.size_le hforms
  intro i e he
  cases h with
  | insert hnew =>
      rw [State.requeue, Chart.entries_push] at he
      split at he
      · rename_i hi
        obtain rfl := Option.some.inj he
        exact Chart.records_singleton hd hsorted fun _ => hi ▸ hd.lt_size
      · exact hrecords i e he
  | keep => exact hrecords i e he
  | replace hpolicy hold =>
      rw [State.requeue, Chart.replace, Chart.entries_modify] at he
      split at he
      · obtain ⟨-, -, rfl⟩ := Option.map_eq_some_iff.1 he
        exact Chart.records_singleton hd hsorted fun hall => absurd hall hpolicy
      · exact hrecords i e he
  | accumulate hpolicy hold =>
      rw [State.entries_accumulate] at he
      split at he
      · rename_i hi
        subst hi
        obtain ⟨e, hold', rfl⟩ := Option.map_eq_some_iff.1 he
        have hform := hs.indexed.position?_eq_some.1 hold
        rw [Chart.form?, Chart.item?, hold'] at hform
        have hadd := (hrecords _ e hold').addDerivation hpolicy
          (Option.some.inj hform ▸ hd : s.chart.Supports schema d e.item.form) hsorted
        -- the trees of an item are no part of what is recorded
        exact ⟨hadd.ne_nil, hadd.nodup, hadd.unique, hadd.sorted, hadd.lt_size, hadd.supported,
          hadd.earlier⟩
      · exact hrecords i e he

/-- Performing a task leaves forms where they are. -/
lemma TaskStep.form? {task : Task W} (h : TaskStep settings schema s task m) (hs : s.Consistent) :
    m.state.Consistent ∧ s.chart.size ≤ m.state.chart.size ∧
      ∀ i < s.chart.size, m.state.chart.form? i = s.chart.form? i := by
  have hmerge : ∀ {x d t}, MergeStep settings s x d t → t.Consistent ∧
      s.chart.size ≤ t.chart.size ∧ ∀ i < s.chart.size, t.chart.form? i = s.chart.form? i :=
    fun hstep => ⟨hstep.consistent hs, (hstep.evolves hs).size_le,
      fun i => (hstep.evolves hs).form?⟩
  cases h with
  | seed hstep => exact hmerge hstep
  | merge hstep => exact hmerge hstep
  | next hnext => exact ⟨hs.pop hnext, le_rfl, fun _ _ => rfl⟩
  | known | done | tryRule _ | idle | fire _ _ => exact ⟨hs, le_rfl, fun _ _ => rfl⟩

/-- Forms stay where they are in the rest of a run, and new entries come behind the old ones. -/
lemma Moment.Reaches.form? {m' : Moment W} (h : Moment.Reaches settings schema m m')
    (hm : m.state.Consistent) :
    m'.state.Consistent ∧ m.state.chart.size ≤ m'.state.chart.size ∧
      ∀ i < m.state.chart.size, m'.state.chart.form? i = m.state.chart.form? i := by
  induction h with
  | refl => exact ⟨hm, le_rfl, fun _ _ => rfl⟩
  | tail _ hstep ih =>
      obtain ⟨hconsistent, hsize, hforms⟩ := ih
      cases hstep with
      | perform hperform =>
          obtain ⟨hconsistent', hsize', hforms'⟩ := (TaskStep.of_perform hperform).form? hconsistent
          exact ⟨hconsistent', hsize.trans hsize', fun i hi =>
            (hforms' i (hi.trans_le hsize)).trans (hforms i hi)⟩

/-! ### Orderly states -/

/-- Whether a consequence that is to be merged has a reason, and what is to be tried can give
one. -/
def Task.IsReasonable (schema : Schema W) (s : State W) : Task W → Prop
  | seed name x => (name, x) ∈ schema.axiomItems
  | drain => True
  | tryRule _ rule => rule ∈ schema.rules
  | tryAt rule positions => rule ∈ schema.rules ∧ positions.Nodup
  | merge x d => s.chart.Supports schema d x.form ∧ d.antecedents.Pairwise (· < ·)

/-- What is reasonable stays so as long as forms stay where they are. -/
lemma Task.IsReasonable.of_forms {task : Task W} (h : task.IsReasonable schema s)
    (hforms : ∀ i < s.chart.size, t.chart.form? i = s.chart.form? i) :
    task.IsReasonable schema t := by
  cases task with
  | merge x d => exact ⟨h.1.of_forms hforms, h.2⟩
  | seed | drain | tryRule | tryAt => exact h

/-- The derivations in a consistent state are in order, and tasks stay reasonable. -/
lemma invariant_records (settings : Settings) (schema : Schema W) :
    Invariant settings schema
      (fun s => s.Consistent ∧
        ∀ i e, s.chart.entries[i]? = some e → s.chart.Records settings schema i e)
      fun s task => task.IsReasonable schema s where
  empty := ⟨State.consistent_empty, fun i e he => by simp [State.empty, Chart.empty] at he⟩
  seed name x hx := hx
  drain := trivial
  perform s task m hs htask hstep := by
    obtain ⟨hs, hrecords⟩ := hs
    obtain ⟨hconsistent, -, hforms⟩ := hstep.form? hs
    have hothers : ∀ other : Task W, other.IsReasonable schema s →
        other.IsReasonable schema m.state := fun other h => h.of_forms hforms
    rw [← and_assoc]
    refine ⟨?_, hothers⟩
    rw [and_assoc]
    refine ⟨hconsistent, ?_⟩
    cases hstep with
    | @seed name x t hstep =>
        exact ⟨hstep.records hs (Or.inl ⟨rfl, x, htask, rfl⟩) List.Pairwise.nil hrecords, by simp⟩
    | known | done | idle => exact ⟨hrecords, by simp⟩
    | next hnext =>
        refine ⟨hrecords, fun sub hsub => ?_⟩
        rcases List.mem_append.1 hsub with hsub | hsub
        · obtain ⟨rule, hrule, rfl⟩ := List.mem_map.1 hsub
          exact hrule
        · rw [List.mem_singleton.1 hsub]
          trivial
    | tryRule hnodup =>
        refine ⟨hrecords, fun sub hsub => ?_⟩
        obtain ⟨positions, hpositions, rfl⟩ := List.mem_map.1 hsub
        exact ⟨htask, hnodup positions hpositions⟩
    | fire hxs hf =>
        refine ⟨hrecords, fun sub hsub => ?_⟩
        obtain ⟨x, hx, rfl⟩ := List.mem_map.1 hsub
        exact ⟨Chart.supports_of_fire htask.1 hxs hf hx, pairwise_lt_mergeSort htask.2⟩
    | merge hstep => exact ⟨hstep.records hs htask.1 htask.2 hrecords, by simp⟩

/-- A state in order: no form stands at two positions, the index leads from forms to their
positions, derivations are in order, the agenda holds different positions of the chart, the set
beside it the same ones, and if all derivations are kept, every entry has a proof. -/
structure State.IsOrderly (settings : Settings) (schema : Schema W) (s : State W) : Prop where
  eq_of_form : ∀ i j form, s.chart.form? i = some form → s.chart.form? j = some form → i = j
  index_iff : ∀ form i, s.chart.index[form]? = some i ↔ s.chart.form? i = some form
  records : ∀ i e, s.chart.entries[i]? = some e → s.chart.Records settings schema i e
  nodup_agenda : s.agenda.toList.Nodup
  waiting_lt : ∀ i ∈ s.agenda.toList, i < s.chart.size
  waiting_iff : ∀ i, s.agenda.waiting.contains i = true ↔ i ∈ s.agenda.toList
  proves : settings.policy = .accumulate → ∀ i < s.chart.size, s.chart.Proves schema i

/-- For every policy, limit and schema: the state is in order at every moment, and in the rest of
the run no form leaves its position and the chart does not shrink. The moments are those of the run:
one that ends passes through all of them to its last state, and one that fails comes to a task that
fails, or to positions that are still waiting when no more of them may be expanded. -/
theorem isOrderly_of_reaches (settings : Settings) (schema : Schema W) :
    (∀ m, Moment.Reaches settings schema (.start schema) m →
      m.state.IsOrderly settings schema ∧ ∀ m', Moment.Reaches settings schema m m' →
        m.state.chart.size ≤ m'.state.chart.size ∧
          ∀ i < m.state.chart.size, m'.state.chart.form? i = m.state.chart.form? i) ∧
    (∀ fuel t, finalState settings schema fuel = .ok t →
      Moment.Reaches settings schema (.start schema) ⟨[], t⟩ ∧
        ∀ m, Moment.Reaches settings schema (.start schema) m →
          Moment.Reaches settings schema m ⟨[], t⟩) ∧
    ∀ fuel failure, finalState settings schema fuel = .error failure →
      ∃ task rest t, Moment.Reaches settings schema (.start schema) ⟨task :: rest, t⟩ ∧
        (task.perform settings schema t = .error failure ∨
          failure = .unfinished ∧ task = .drain ∧ t.agenda.next? ≠ none) := by
  refine ⟨fun m hm => ?_, fun fuel t h => ⟨reaches_of_finalState h, fun m =>
    reaches_finalState_of_reaches h⟩, fun fuel failure => exists_reaches_of_finalState_error⟩
  obtain ⟨hconsistent, hrecords⟩ := ((invariant_records settings schema).of_reaches hm).1
  refine ⟨⟨fun i j form => hconsistent.indexed.eq_of_form, hconsistent.indexed, hrecords,
    hconsistent.agenda.nodup, hconsistent.waiting_lt, hconsistent.agenda.contains_iff,
    fun hpolicy i => Chart.proves_of_records hpolicy hrecords⟩, fun m' hm' => ?_⟩
  exact (hm'.form? hconsistent).2

/-- Where the run on two spans has nothing left to do, the state is in order, and what both spans
say together is in the chart and has a proof. -/
theorem exists_reaches_isOrderly_twoSpans :
    ∃ m, Moment.Reaches ⟨.accumulate, none⟩ Schema.twoSpans
        (.start (Schema.twoSpans : Schema Float)) m ∧
      m.tasks = [] ∧ m.state.IsOrderly ⟨.accumulate, none⟩ Schema.twoSpans ∧
      ∃ i, m.state.chart.form? i = some [.symbol "S", .index 0, .index 2] ∧
        m.state.chart.Proves Schema.twoSpans i := by
  obtain ⟨fuel, o, h⟩ := exists_run_twoSpans (W := Float)
  obtain ⟨t, ht, rfl⟩ := run_eq_ok h
  obtain ⟨horderly, hpasses, -⟩ :=
    isOrderly_of_reaches ⟨.accumulate, none⟩ (Schema.twoSpans : Schema Float)
  have hreaches := (hpasses fuel t ht).1
  have horderly := (horderly _ hreaches).1
  have hclosed := isClosed_forms_of_finalState Schema.twoSpans_rules ht
  have hspans : ∀ form ∈ ([[.symbol "A", .index 0, .index 1], [.symbol "B", .index 1, .index 1]] :
      List Form), form ∈ t.chart.forms := by
    intro form hform
    have haxiom := hclosed.axioms_mem _ (List.mem_singleton_self _)
    simp only [List.mem_cons, List.not_mem_nil, or_false] at hform
    rcases hform with rfl | rfl
    · exact haxiom _ List.mem_cons_self
    · exact haxiom _ (List.mem_cons_of_mem _ List.mem_cons_self)
  have hjoined : [.symbol "S", .index 0, .index 2] ∈ t.chart.forms :=
    hclosed.mem_of_fire (List.mem_singleton_self (Rule.cyk (.binary Schema.pairProduction))) _
      hspans (by decide) rfl (List.mem_singleton_self _)
  obtain ⟨i, hi⟩ := Chart.mem_forms.1 hjoined
  exact ⟨_, hreaches, rfl, horderly, i, hi, horderly.proves rfl i (Chart.lt_size_of_form? hi)⟩

end Deduction

end DeductiveParsing
