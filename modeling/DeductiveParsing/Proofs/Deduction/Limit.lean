/-
A limit for the chart only cuts a run off: as long as there is room, everything is done as without
it.

* `CutsOff`: computations that begin in one state end alike, unless the chart outgrows the limit;
* `CutsOff.of_merge`, `CutsOff.of_expand`, `CutsOff.of_finalState`: so do the parts of a run with a
  limit and without;
* `Task.isCutOff`, `Moment.reaches_limit_iff`: a run with a limit passes through the moments of the
  run without one that have room;
* `run_limit`: it has the same outcome or fails because of the limit.
-/
import DeductiveParsing.Proofs.Deduction.Moments
import DeductiveParsing.Proofs.Deduction.Termination

namespace DeductiveParsing.Deduction

variable {W : Type}

/-! ### Computations with a limit and without -/

/-- Whether two computations, of which the second has a limit, end alike: the first one does not
shrink the chart on which it begins, and if that has room, the second one has the same result, or
none if the chart of the result is too large; where the first one fails, so does the second, for the
same reason or because of the limit. -/
structure CutsOff (limit : ℕ) (s : State W) (free limited : Except Failure (State W)) : Prop where
  size_le : ∀ t, free = .ok t → s.chart.size ≤ t.chart.size
  ok : s.chart.size ≤ limit → ∀ t, free = .ok t →
    limited = if t.chart.size ≤ limit then .ok t else .error (.chartLimit limit)
  error : s.chart.size ≤ limit → ∀ failure, free = .error failure →
    limited = .error failure ∨ limited = .error (.chartLimit limit)

namespace CutsOff

variable {limit : ℕ} {s t : State W} {free limited : Except Failure (State W)}

/-- What does not change the size of the chart needs no room. -/
lemma of_size_eq (h : t.chart.size = s.chart.size) : CutsOff limit s (.ok t) (.ok t) where
  size_le u hu := by
    obtain rfl := Except.ok.inj hu
    exact h.ge
  ok hs u hu := by
    obtain rfl := Except.ok.inj hu
    rw [if_pos (h.trans_le hs)]
  error _ _ h := nomatch h

/-- Nor does a failure that has nothing to do with the limit. -/
lemma of_failure (s : State W) (failure : Failure) :
    CutsOff limit s (.error failure) (.error failure) where
  size_le _ h := nomatch h
  ok _ _ h := nomatch h
  error _ _ h := Or.inl h

/-- A computation begins with another one. What goes on from a chart that is too large for the limit
only makes it larger. -/
lemma bind {f f' : State W → Except Failure (State W)} (h : CutsOff limit s free limited)
    (hf : ∀ t, CutsOff limit t (f t) (f' t)) : CutsOff limit s (free >>= f) (limited >>= f') where
  size_le u hu := by
    obtain ⟨t, ht, hu⟩ := bind_eq_ok.1 hu
    exact (h.size_le t ht).trans ((hf t).size_le u hu)
  ok hs u hu := by
    obtain ⟨t, ht, hu⟩ := bind_eq_ok.1 hu
    rw [h.ok hs t ht]
    split
    · rename_i hroom
      exact (hf t).ok hroom u hu
    · rename_i hfull
      have hle := (hf t).size_le u hu
      rw [if_neg (by omega)]
      rfl
  error hs failure hfailure := by
    cases free with
    | error e =>
        obtain rfl := Except.error.inj hfailure
        rcases h.error hs e rfl with heq | heq
        · exact Or.inl (by rw [heq]; rfl)
        · exact Or.inr (by rw [heq]; rfl)
    | ok t =>
        rw [h.ok hs t rfl]
        split
        · rename_i hroom
          exact (hf t).error hroom failure hfailure
        · exact Or.inr rfl

/-- The steps of a fold are cut off one by one. -/
lemma foldlM {α : Type} {f f' : State W → α → Except Failure (State W)}
    (h : ∀ s x, CutsOff limit s (f s x) (f' s x)) (xs : List α) (s : State W) :
    CutsOff limit s (xs.foldlM f s) (xs.foldlM f' s) := by
  induction xs generalizing s with
  | nil => exact of_size_eq rfl
  | cons x xs ih =>
      rw [List.foldlM_cons, List.foldlM_cons]
      exact (h s x).bind ih

end CutsOff

/-! ### The parts of a run -/

section Parts

variable (policy : Policy) (limit : ℕ) (s : State W)

/-- Only here the limit is asked for: one more item has room if the chart is not full. -/
lemma CutsOff.of_insert (x : Item W) (d : Derivation) : CutsOff limit s
    (s.insert ⟨policy, none⟩ x d) (s.insert ⟨policy, some limit⟩ x d) where
  size_le t ht := by
    obtain rfl := State.insert_eq_ok ht
    simp [State.requeue]
  ok _ t ht := by
    obtain rfl := State.insert_eq_ok ht
    have hsize : (State.requeue ⟨s.chart.push x d, s.agenda⟩ s.chart.size).chart.size =
        s.chart.size + 1 := Chart.size_push s.chart x d
    rw [hsize]
    by_cases hfull : limit ≤ s.chart.size
    · simp [State.insert, State.isFull, hfull, Nat.not_le.2 (Nat.lt_succ_of_le hfull)]
    · simp [State.insert, State.isFull, hfull, Nat.succ_le_of_lt (Nat.not_le.1 hfull)]
  error _ failure h := by simp [State.insert, State.isFull] at h

/-- An item of an axiom that is known needs no room. -/
lemma CutsOff.of_seedItem (name : String) (x : Item W) : CutsOff limit s
    (seedItem ⟨policy, none⟩ name s x) (seedItem ⟨policy, some limit⟩ name s x) := by
  rw [seedItem, seedItem]
  split
  · exact of_size_eq rfl
  · exact of_insert policy limit s x ⟨name, []⟩

lemma CutsOff.of_seed (schema : Schema W) : CutsOff limit .empty
    (seed ⟨policy, none⟩ schema) (seed ⟨policy, some limit⟩ schema) := by
  rw [seed_eq, seed_eq]
  exact foldlM (fun (s : State W) (a : String × Item W) => of_seedItem policy limit s a.1 a.2) _ _

variable [Weight W]

/-- A further derivation, more trees or a better item need no room. -/
lemma CutsOff.of_merge (x : Item W) (d : Derivation) : CutsOff limit s
    (s.merge ⟨policy, none⟩ x d) (s.merge ⟨policy, some limit⟩ x d) := by
  rw [State.merge, State.merge]
  split
  · exact of_insert policy limit s x d
  · rename_i i _
    have himprove : ∀ policy : Policy, (s.improve policy i x d).chart.size = s.chart.size := by
      intro policy
      rw [State.improve]
      split
      · exact Chart.size_modify s.chart i _
      · rfl
    cases policy
    · exact of_size_eq (s.size_accumulate i x d)
    · exact of_size_eq (himprove .higherWins)
    · exact of_size_eq (himprove .lowerWins)

lemma CutsOff.of_applyAt (rule : Rule W) (positions : List ℕ) : CutsOff limit s
    (s.applyAt ⟨policy, none⟩ rule positions) (s.applyAt ⟨policy, some limit⟩ rule positions) := by
  rw [State.applyAt, State.applyAt]
  split
  · exact of_size_eq rfl
  · exact foldlM (fun s x => of_merge policy limit s x _) _ s

lemma CutsOff.of_applyRule (first : ℕ) (rule : Rule W) : CutsOff limit s
    (State.applyRule ⟨policy, none⟩ first s rule)
    (State.applyRule ⟨policy, some limit⟩ first s rule) := by
  rw [State.applyRule, State.applyRule]
  split
  · exact of_size_eq rfl
  · exact foldlM (fun s others => of_applyAt policy limit s rule (first :: others)) _ s

lemma CutsOff.of_expand (schema : Schema W) (first : ℕ) : CutsOff limit s
    (State.expand ⟨policy, none⟩ schema first s)
    (State.expand ⟨policy, some limit⟩ schema first s) :=
  foldlM (fun s rule => of_applyRule policy limit s first rule) schema.rules s

/-- While there is fuel, the next position is expanded and then the others. -/
lemma drain_succ (settings : Settings) (schema : Schema W) (fuel : ℕ) (s : State W) :
    drain settings schema (fuel + 1) s =
      match s.agenda.next? with
      | none => .ok s
      | some (first, agenda) =>
        State.expand settings schema first ⟨s.chart, agenda⟩ >>= drain settings schema fuel := by
  rw [drain]
  cases s.agenda.next? with
  | none => rfl
  | some next =>
      obtain ⟨first, agenda⟩ := next
      dsimp only
      cases State.expand settings schema first ⟨s.chart, agenda⟩ <;> rfl

lemma CutsOff.of_drain (schema : Schema W) (fuel : ℕ) : CutsOff limit s
    (drain ⟨policy, none⟩ schema fuel s) (drain ⟨policy, some limit⟩ schema fuel s) := by
  induction fuel generalizing s with
  | zero =>
      rw [drain, drain]
      cases s.agenda.next? with
      | none => exact of_size_eq rfl
      | some _ => exact of_failure s .unfinished
  | succ fuel ih =>
      rw [drain_succ, drain_succ]
      cases s.agenda.next? with
      | none => exact of_size_eq rfl
      | some next =>
          -- taking a position off the agenda leaves the chart as it is
          have hexpand := of_expand policy limit ⟨s.chart, next.2⟩ schema next.1
          exact bind ⟨hexpand.size_le, hexpand.ok, hexpand.error⟩ ih

lemma CutsOff.of_finalState (schema : Schema W) (fuel : ℕ) : CutsOff limit .empty
    (finalState ⟨policy, none⟩ schema fuel) (finalState ⟨policy, some limit⟩ schema fuel) := by
  have hbind : ∀ settings : Settings, finalState settings schema fuel =
      seed settings schema >>= drain settings schema fuel := by
    intro settings
    rw [finalState]
    cases seed settings schema <;> rfl
  rw [hbind, hbind]
  exact (of_seed policy limit schema).bind fun s => of_drain policy limit s schema fuel

end Parts

/-! ### Moments -/

section Moments

variable [Weight W] {policy : Policy} {limit : ℕ} {schema : Schema W} {s : State W}
  {m m' : Moment W}

/-- Whether a task is performed without a limit, and with one too if there is room for what it leads
to, while otherwise it fails because of the limit. -/
def Task.IsCutOff (policy : Policy) (limit : ℕ) (schema : Schema W) (s : State W) (task : Task W) :
    Prop :=
  ∃ m, task.perform ⟨policy, none⟩ schema s = .ok m ∧ s.chart.size ≤ m.state.chart.size ∧
    task.perform ⟨policy, some limit⟩ schema s =
      if m.state.chart.size ≤ limit then .ok m else .error (.chartLimit limit)

namespace Task

variable {task : Task W}

/-- A task that brings nothing into the chart does not ask for the limit. -/
lemma isCutOff_of_size_eq (hs : s.chart.size ≤ limit) (hsize : m.state.chart.size = s.chart.size)
    (h : ∀ settings, task.perform settings schema s = .ok m) :
    task.IsCutOff policy limit schema s :=
  ⟨m, h _, hsize.ge, by rw [h, if_pos (hsize.trans_le hs)]⟩

/-- The others are performed as far as the state to which they lead has room. -/
lemma isCutOff_of_cutsOff (hs : s.chart.size ≤ limit) {free limited : Except Failure (State W)}
    (h : CutsOff limit s free limited) (hfree : ∃ t, free = .ok t)
    (hperform : task.perform ⟨policy, none⟩ schema s = free.map (Moment.mk []))
    (hperform' : task.perform ⟨policy, some limit⟩ schema s = limited.map (Moment.mk [])) :
    task.IsCutOff policy limit schema s := by
  obtain ⟨t, rfl⟩ := hfree
  refine ⟨⟨[], t⟩, hperform, h.size_le t rfl, ?_⟩
  rw [hperform', h.ok hs t rfl]
  split <;> rfl

/-- As long as the chart has room, the limit cuts off no other task than one that brings an item too
many into the chart. -/
theorem isCutOff (task : Task W) (policy : Policy) (schema : Schema W)
    (hs : s.chart.size ≤ limit) :
    task.IsCutOff policy limit schema s := by
  cases task with
  | seed name x =>
      refine isCutOff_of_cutsOff hs (.of_seedItem policy limit s name x) ?_ rfl rfl
      rw [seedItem]
      split <;> exact ⟨_, rfl⟩
  | merge x d =>
      refine isCutOff_of_cutsOff hs (.of_merge policy limit s x d) ?_ rfl rfl
      rw [State.merge]
      split
      · exact ⟨_, rfl⟩
      · cases policy <;> exact ⟨_, rfl⟩
  | drain =>
      cases hnext : s.agenda.next? with
      | none => exact isCutOff_of_size_eq (m := ⟨[], s⟩) hs rfl fun _ => by rw [perform, hnext]
      | some next => exact isCutOff_of_size_eq hs rfl fun _ => by rw [perform, hnext]
  | tryRule first rule =>
      cases harity : rule.arity with
      | zero => exact isCutOff_of_size_eq (m := ⟨[], s⟩) hs rfl fun _ => by rw [perform, harity]
      | succ needed => exact isCutOff_of_size_eq hs rfl fun _ => by rw [perform, harity]
  | tryAt rule positions =>
      cases hfires : (positions.mapM s.chart.item?).bind rule.fire? with
      | none => exact isCutOff_of_size_eq (m := ⟨[], s⟩) hs rfl fun _ => by rw [perform, hfires]
      | some firing => exact isCutOff_of_size_eq hs rfl fun _ => by rw [perform, hfires]

end Task

/-- The chart does not shrink from one moment to the next. -/
lemma Moment.Step.size_le (h : Moment.Step ⟨policy, none⟩ schema m m') :
    m.state.chart.size ≤ m'.state.chart.size := by
  obtain ⟨hperform⟩ := h
  rename_i task rest s m
  obtain ⟨m', hfree, hle, -⟩ := task.isCutOff policy schema le_rfl
  obtain rfl := Except.ok.inj (hperform.symm.trans hfree)
  exact hle

/-- From a moment that has room, a run with a limit comes to the next moment of the run without one
if that has room as well. -/
lemma Moment.step_limit_iff (hm : m.state.chart.size ≤ limit) :
    Moment.Step ⟨policy, some limit⟩ schema m m' ↔
      Moment.Step ⟨policy, none⟩ schema m m' ∧ m'.state.chart.size ≤ limit := by
  constructor
  · rintro ⟨hperform⟩
    rename_i task rest s m
    obtain ⟨m', hfree, -, hlimited⟩ := task.isCutOff policy schema hm
    rw [hperform] at hlimited
    split at hlimited
    · rename_i hroom
      obtain rfl := Except.ok.inj hlimited
      exact ⟨.perform hfree, hroom⟩
    · cases hlimited
  · rintro ⟨⟨hperform⟩, hroom⟩
    rename_i task rest s m
    obtain ⟨m', hfree, -, hlimited⟩ := task.isCutOff policy schema hm
    obtain rfl := Except.ok.inj (hperform.symm.trans hfree)
    exact .perform (hlimited.trans (if_pos hroom))

/-- A run with a limit passes through the moments of the run without one that have room. -/
theorem Moment.reaches_limit_iff (hm : m.state.chart.size ≤ limit) :
    Moment.Reaches ⟨policy, some limit⟩ schema m m' ↔
      Moment.Reaches ⟨policy, none⟩ schema m m' ∧ m'.state.chart.size ≤ limit := by
  constructor
  · intro h
    induction h with
    | refl => exact ⟨.refl, hm⟩
    | tail _ hstep ih =>
        obtain ⟨hfree, hroom⟩ := (step_limit_iff ih.2).1 hstep
        exact ⟨ih.1.tail hfree, hroom⟩
  · rintro ⟨h, hroom⟩
    -- the chart only grows, so that there is room at all moments before
    induction h with
    | refl => exact .refl
    | tail _ hstep ih =>
        have hroom' := hstep.size_le.trans hroom
        exact (ih hroom').tail ((step_limit_iff hroom').2 ⟨hstep, hroom⟩)

end Moments

/-! ### Runs -/

/-- A limit for the chart only cuts a run off. For every policy, limit and schema: the moments of the
run with the limit are those of the run without it at which the chart has room. From each of them on
everything is done as without the limit, until a task would bring one item too many into the chart;
that fails because of the limit. So when the run without the limit ends, the run with it has the
same outcome if the chart at the end is not too large, and fails because of the limit if it is; and
when the run without the limit is not finished, the run with it is not either, or fails because of
the limit. -/
theorem run_limit [Weight W] (policy : Policy) (limit : ℕ) (schema : Schema W) :
    (∀ m, Moment.Reaches ⟨policy, some limit⟩ schema (.start schema) m ↔
      Moment.Reaches ⟨policy, none⟩ schema (.start schema) m ∧ m.state.chart.size ≤ limit) ∧
    (∀ (s : State W) (task : Task W), s.chart.size ≤ limit →
      ∃ m, task.perform ⟨policy, none⟩ schema s = .ok m ∧ s.chart.size ≤ m.state.chart.size ∧
        task.perform ⟨policy, some limit⟩ schema s =
          if m.state.chart.size ≤ limit then .ok m else .error (.chartLimit limit)) ∧
    (∀ (fuel : ℕ) (o : Outcome W), run ⟨policy, none⟩ schema fuel = .ok o →
      run ⟨policy, some limit⟩ schema fuel =
        if o.chart.size ≤ limit then .ok o else .error (.chartLimit limit)) ∧
    ∀ fuel failure, run ⟨policy, none⟩ schema fuel = .error failure →
      run ⟨policy, some limit⟩ schema fuel = .error failure ∨
        run ⟨policy, some limit⟩ schema fuel = .error (.chartLimit limit) := by
  have hcuts := CutsOff.of_finalState policy limit schema
  have hroom : (State.empty : State W).chart.size ≤ limit := Nat.zero_le limit
  refine ⟨fun m => Moment.reaches_limit_iff hroom, fun s task => task.isCutOff policy schema,
    fun fuel o hrun => ?_, fun fuel failure hrun => ?_⟩
  · obtain ⟨t, ht, rfl⟩ := run_eq_ok hrun
    have hsize : (Outcome.ofChart schema.goals t.chart).chart.size = t.chart.size := rfl
    rw [run, (hcuts fuel).ok hroom t ht, hsize]
    split <;> rfl
  · cases hfree : finalState ⟨policy, none⟩ schema fuel with
    | ok t =>
        rw [run, hfree] at hrun
        cases hrun
    | error failure' =>
        rw [run, hfree] at hrun
        obtain rfl := Except.error.inj hrun
        rcases (hcuts fuel).error hroom failure' hfree with heq | heq
        · exact Or.inl (by rw [run, heq]; rfl)
        · exact Or.inr (by rw [run, heq]; rfl)

/-- The chart for two spans ends with three items. A limit of three leaves the run as it is, with
two it fails at the last item, and with none at the first. -/
theorem run_limit_twoSpans :
    ∃ o, run ⟨.accumulate, none⟩ (Schema.twoSpans : Schema Float) 5 = .ok o ∧ o.chart.size = 3 ∧
      run ⟨.accumulate, some 3⟩ Schema.twoSpans 5 = .ok o ∧
      run ⟨.accumulate, some 2⟩ (Schema.twoSpans : Schema Float) 5 = .error (.chartLimit 2) ∧
      run ⟨.accumulate, some 0⟩ (Schema.twoSpans : Schema Float) 5 = .error (.chartLimit 0) := by
  have hsize : (run ⟨.accumulate, none⟩ (Schema.twoSpans : Schema Float) 5).toOption.map
      (fun o => o.chart.size) = some 3 := by cbv
  cases hrun : run ⟨.accumulate, none⟩ (Schema.twoSpans : Schema Float) 5 with
  | error failure =>
      rw [hrun] at hsize
      cases hsize
  | ok o =>
      rw [hrun] at hsize
      have hsize : o.chart.size = 3 := Option.some.inj hsize
      have hlimit := fun limit : ℕ =>
        (run_limit .accumulate limit (Schema.twoSpans : Schema Float)).2.2.1 5 o hrun
      exact ⟨o, rfl, hsize, by rw [hlimit, hsize]; rfl, by rw [hlimit, hsize]; rfl,
        by rw [hlimit, hsize]; rfl⟩

end DeductiveParsing.Deduction
