/-
The moments of a run, one for each thing that a run does.

* `Task`, `Task.perform`: what is still to be done, and what doing it leaves to be done;
* `Moment.Step`, `Moment.Reaches`: from moment to moment the first task is performed;
* `reaches_of_finalState`, `exists_reaches_of_finalState_error`: a run passes through moments to its
  last state, or to a task that fails;
* `TaskStep`: the ways in which a task is performed;
* `Invariant.of_reaches`: what every task preserves holds at every moment;
* `all_of_reaches`: so what rules preserve holds of the items of the chart at every moment.
-/
import DeductiveParsing.Proofs.Deduction.Forests

namespace DeductiveParsing.Deduction

open Relation (ReflTransGen)

variable {W : Type}

/-! ### Tasks -/

/-- What is still to be done: an item of an axiom has to be put into the chart, waiting positions
have to be expanded, a rule has to be tried with a position, or at given positions, or a consequence
has to be merged. -/
inductive Task (W : Type) where
  | seed (name : String) (x : Item W)
  | drain
  | tryRule (first : ℕ) (rule : Rule W)
  | tryAt (rule : Rule W) (positions : List ℕ)
  | merge (x : Item W) (d : Derivation)

/-- A moment of a run: the tasks that are left, in their order, and the state. -/
structure Moment (W : Type) where
  tasks : List (Task W)
  state : State W

/-- The moment at which a run begins. -/
def Moment.start (schema : Schema W) : Moment W :=
  ⟨schema.axiomItems.map (fun a => .seed a.1 a.2) ++ [.drain], .empty⟩

variable [Weight W]

/-- Performs a task. The tasks in the result take its place. -/
def Task.perform (settings : Settings) (schema : Schema W) (s : State W) :
    Task W → Except Failure (Moment W)
  | seed name x => (seedItem settings name s x).map fun t => ⟨[], t⟩
  | drain =>
    match s.agenda.next? with
    | none => .ok ⟨[], s⟩
    | some (first, agenda) => .ok ⟨schema.rules.map (tryRule first) ++ [drain], ⟨s.chart, agenda⟩⟩
  | tryRule first rule =>
    match rule.arity with
    | 0 => .ok ⟨[], s⟩
    | needed + 1 =>
      .ok ⟨(State.otherPositions s.chart.size first needed).map fun others =>
        tryAt rule (first :: others), s⟩
  | tryAt rule positions =>
    match (positions.mapM s.chart.item?).bind rule.fire? with
    | none => .ok ⟨[], s⟩
    | some firing =>
      .ok ⟨firing.items.map fun x => merge x ⟨firing.name, positions.mergeSort⟩, s⟩
  | merge x d => (s.merge settings x d).map fun t => ⟨[], t⟩

/-- From one moment to the next the first task is performed. -/
inductive Moment.Step (settings : Settings) (schema : Schema W) : Moment W → Moment W → Prop
  | perform {task : Task W} {rest : List (Task W)} {s : State W} {m : Moment W}
      (h : task.perform settings schema s = .ok m) :
      Step settings schema ⟨task :: rest, s⟩ ⟨m.tasks ++ rest, m.state⟩

/-- Whether a run comes from one moment to another. -/
def Moment.Reaches (settings : Settings) (schema : Schema W) : Moment W → Moment W → Prop :=
  ReflTransGen (Moment.Step settings schema)

variable {settings : Settings} {schema : Schema W} {s t u : State W} {m m' : Moment W}
  {tasks : List (Task W)}

/-! ### Runs pass through moments -/

/-- Whether tasks are performed, whatever is to be done behind them. -/
def Completes (settings : Settings) (schema : Schema W) (tasks : List (Task W)) (s t : State W) :
    Prop :=
  ∀ rest, Moment.Reaches settings schema ⟨tasks ++ rest, s⟩ ⟨rest, t⟩

namespace Completes

lemma nil (s : State W) : Completes settings schema [] s s := fun _ => .refl

lemma append {tasks' : List (Task W)} (h : Completes settings schema tasks s t)
    (h' : Completes settings schema tasks' t u) :
    Completes settings schema (tasks ++ tasks') s u := by
  intro rest
  rw [List.append_assoc]
  exact (h _).trans (h' rest)

/-- A task is performed if those are that take its place. -/
lemma of_perform {task : Task W} (h : task.perform settings schema s = .ok m)
    (hm : Completes settings schema m.tasks m.state t) : Completes settings schema [task] s t :=
  fun rest => (ReflTransGen.single (.perform h)).trans (hm rest)

/-- The steps of a fold are performed one by one. -/
lemma of_foldlM {α : Type} {f : State W → α → Except Failure (State W)} {l : List α}
    (task : α → Task W) (hstep : ∀ s x t, f s x = .ok t → Completes settings schema [task x] s t)
    (h : l.foldlM f s = .ok t) : Completes settings schema (l.map task) s t := by
  induction l generalizing s with
  | nil =>
      obtain rfl := Except.ok.inj h
      exact nil s
  | cons x l ih =>
      obtain ⟨u, hu, h⟩ := bind_eq_ok.1 (List.foldlM_cons.symm.trans h)
      exact (hstep s x u hu).append (ih h)

lemma of_seedItem {name : String} {x : Item W} (h : seedItem settings name s x = .ok t) :
    Completes settings schema [.seed name x] s t :=
  of_perform (m := ⟨[], t⟩) (by rw [Task.perform, h]; rfl) (nil t)

lemma of_merge {x : Item W} {d : Derivation} (h : s.merge settings x d = .ok t) :
    Completes settings schema [.merge x d] s t :=
  of_perform (m := ⟨[], t⟩) (by rw [Task.perform, h]; rfl) (nil t)

lemma of_applyAt {rule : Rule W} {positions : List ℕ}
    (h : s.applyAt settings rule positions = .ok t) :
    Completes settings schema [.tryAt rule positions] s t := by
  rw [State.applyAt] at h
  split at h
  · rename_i hnone
    obtain rfl := Except.ok.inj h
    exact of_perform (m := ⟨[], s⟩) (by rw [Task.perform, hnone]) (nil s)
  · rename_i firing hfires
    exact of_perform (by rw [Task.perform, hfires]) (of_foldlM _ (fun _ _ _ => of_merge) h)

lemma of_applyRule {first : ℕ} {rule : Rule W}
    (h : State.applyRule settings first s rule = .ok t) :
    Completes settings schema [.tryRule first rule] s t := by
  rw [State.applyRule] at h
  split at h
  · rename_i hzero
    obtain rfl := Except.ok.inj h
    exact of_perform (m := ⟨[], s⟩) (by rw [Task.perform, hzero]) (nil s)
  · rename_i needed hneeded
    exact of_perform (by rw [Task.perform, hneeded]) (of_foldlM _ (fun _ _ _ => of_applyAt) h)

lemma of_drain {fuel : ℕ} (h : drain settings schema fuel s = .ok t) :
    Completes settings schema [.drain] s t := by
  have hend : s.agenda.next? = none → Completes settings schema [.drain] s s := fun hnone =>
    of_perform (m := ⟨[], s⟩) (by rw [Task.perform, hnone]) (nil s)
  induction fuel generalizing s with
  | zero =>
      rw [drain] at h
      split at h
      · rename_i hnone
        exact Except.ok.inj h ▸ hend hnone
      · cases h
  | succ fuel ih =>
      rw [drain] at h
      split at h
      · rename_i hnone
        exact Except.ok.inj h ▸ hend hnone
      · rename_i first agenda hnext
        split at h
        · rename_i u hexpand
          refine of_perform (by rw [Task.perform, hnext]) ?_
          refine append (of_foldlM _ (fun _ _ _ => of_applyRule) hexpand) (ih h fun hnone => ?_)
          exact of_perform (m := ⟨[], u⟩) (by rw [Task.perform, hnone]) (nil u)
        · cases h

end Completes

/-- Whether a run does not get behind tasks, whatever is to be done behind them: it comes to a task
that fails, or to positions that are still waiting when no more of them may be expanded. -/
def Breaks (settings : Settings) (schema : Schema W) (tasks : List (Task W)) (s : State W)
    (failure : Failure) : Prop :=
  ∀ rest, ∃ task rest' t, Moment.Reaches settings schema ⟨tasks ++ rest, s⟩ ⟨task :: rest', t⟩ ∧
    (task.perform settings schema t = .error failure ∨
      failure = .unfinished ∧ task = .drain ∧ t.agenda.next? ≠ none)

namespace Breaks

variable {failure : Failure}

lemma of_error {task : Task W} (h : task.perform settings schema s = .error failure) :
    Breaks settings schema [task] s failure :=
  fun rest => ⟨task, rest, s, .refl, Or.inl h⟩

lemma of_perform {task : Task W} (h : task.perform settings schema s = .ok m)
    (hm : Breaks settings schema m.tasks m.state failure) :
    Breaks settings schema [task] s failure := by
  intro rest
  obtain ⟨task', rest', t, hreaches, hstop⟩ := hm rest
  exact ⟨task', rest', t, .head (.perform h) hreaches, hstop⟩

lemma append {tasks' : List (Task W)} (h : Completes settings schema tasks s t)
    (h' : Breaks settings schema tasks' t failure) :
    Breaks settings schema (tasks ++ tasks') s failure := by
  intro rest
  obtain ⟨task', rest', u, hreaches, hstop⟩ := h' rest
  rw [List.append_assoc]
  exact ⟨task', rest', u, (h _).trans hreaches, hstop⟩

lemma append_left (h : Breaks settings schema tasks s failure) (tasks' : List (Task W)) :
    Breaks settings schema (tasks ++ tasks') s failure := by
  intro rest
  rw [List.append_assoc]
  exact h _

/-- A fold fails at one of its steps. -/
lemma of_foldlM {α : Type} {f : State W → α → Except Failure (State W)} {l : List α}
    (task : α → Task W) (hstep : ∀ s x t, f s x = .ok t → Completes settings schema [task x] s t)
    (hbreak : ∀ s x, f s x = .error failure → Breaks settings schema [task x] s failure)
    (h : l.foldlM f s = .error failure) : Breaks settings schema (l.map task) s failure := by
  induction l generalizing s with
  | nil => cases h
  | cons x l ih =>
      rw [List.foldlM_cons] at h
      cases hx : f s x with
      | error e =>
          rw [hx] at h
          obtain rfl := Except.error.inj h
          exact (hbreak s x hx).append_left _
      | ok u =>
          rw [hx] at h
          exact append (hstep s x u hx) (ih h)

lemma of_seedItem {name : String} {x : Item W} (h : seedItem settings name s x = .error failure) :
    Breaks settings schema [.seed name x] s failure :=
  of_error (by rw [Task.perform, h]; rfl)

lemma of_merge {x : Item W} {d : Derivation} (h : s.merge settings x d = .error failure) :
    Breaks settings schema [.merge x d] s failure :=
  of_error (by rw [Task.perform, h]; rfl)

lemma of_applyAt {rule : Rule W} {positions : List ℕ}
    (h : s.applyAt settings rule positions = .error failure) :
    Breaks settings schema [.tryAt rule positions] s failure := by
  rw [State.applyAt] at h
  split at h
  · cases h
  · rename_i firing hfires
    exact of_perform (by rw [Task.perform, hfires])
      (of_foldlM _ (fun _ _ _ => Completes.of_merge) (fun _ _ => of_merge) h)

lemma of_applyRule {first : ℕ} {rule : Rule W}
    (h : State.applyRule settings first s rule = .error failure) :
    Breaks settings schema [.tryRule first rule] s failure := by
  rw [State.applyRule] at h
  split at h
  · cases h
  · rename_i needed hneeded
    exact of_perform (by rw [Task.perform, hneeded])
      (of_foldlM _ (fun _ _ _ => Completes.of_applyAt) (fun _ _ => of_applyAt) h)

lemma of_drain {fuel : ℕ} (h : drain settings schema fuel s = .error failure) :
    Breaks settings schema [.drain] s failure := by
  induction fuel generalizing s with
  | zero =>
      rw [drain] at h
      split at h
      · cases h
      · rename_i hnext
        obtain rfl := Except.error.inj h
        exact fun rest => ⟨.drain, rest, s, .refl, Or.inr ⟨rfl, rfl, by simp [hnext]⟩⟩
  | succ fuel ih =>
      rw [drain] at h
      split at h
      · cases h
      · rename_i first agenda hnext
        refine of_perform (by rw [Task.perform, hnext]) ?_
        split at h
        · rename_i u hexpand
          exact append (.of_foldlM _ (fun _ _ _ => Completes.of_applyRule) hexpand) (ih h)
        · rename_i hexpand
          obtain rfl := Except.error.inj h
          exact append_left
            (of_foldlM _ (fun _ _ _ => Completes.of_applyRule) (fun _ _ => of_applyRule) hexpand) _

end Breaks

/-- A run passes through moments to its last state, where nothing is left to be done. -/
theorem reaches_of_finalState {fuel : ℕ} (h : finalState settings schema fuel = .ok t) :
    Moment.Reaches settings schema (.start schema) ⟨[], t⟩ := by
  obtain ⟨s, hseed, hdrain⟩ := finalState_eq_ok h
  rw [seed_eq] at hseed
  have hcompletes : Completes settings schema (Moment.start schema).tasks .empty t :=
    (Completes.of_foldlM (fun a : String × Item W => .seed a.1 a.2)
      (fun _ _ _ => Completes.of_seedItem) hseed).append (.of_drain hdrain)
  have hreaches := hcompletes []
  rwa [List.append_nil] at hreaches

/-- Every moment of a run that ends lies on the way to its last state. -/
theorem reaches_finalState_of_reaches {fuel : ℕ} (h : finalState settings schema fuel = .ok t)
    (hm : Moment.Reaches settings schema (.start schema) m) :
    Moment.Reaches settings schema m ⟨[], t⟩ := by
  have hunique : Relator.RightUnique (Moment.Step settings schema) := by
    rintro m m₁ m₂ ⟨h₁⟩ ⟨h₂⟩
    obtain rfl := Except.ok.inj (h₁.symm.trans h₂)
    rfl
  rcases ReflTransGen.total_of_right_unique hunique hm (reaches_of_finalState h) with h | h
  · exact h
  · -- where nothing is left to be done, there is no further step
    cases ReflTransGen.cases_head h with
    | inl heq => exact heq ▸ .refl
    | inr hstep =>
        obtain ⟨_, hstep, -⟩ := hstep
        cases hstep

/-- A run that fails comes to a moment whose first task fails, or it is stopped at a moment at which
positions are waiting. -/
theorem exists_reaches_of_finalState_error {fuel : ℕ} {failure : Failure}
    (h : finalState settings schema fuel = .error failure) :
    ∃ task rest t, Moment.Reaches settings schema (.start schema) ⟨task :: rest, t⟩ ∧
      (task.perform settings schema t = .error failure ∨
        failure = .unfinished ∧ task = .drain ∧ t.agenda.next? ≠ none) := by
  have hbreaks : Breaks settings schema (Moment.start schema).tasks .empty failure := by
    rw [finalState] at h
    split at h
    · rename_i s hseed
      rw [seed_eq] at hseed
      exact .append (.of_foldlM _ (fun _ _ _ => Completes.of_seedItem) hseed) (.of_drain h)
    · rename_i hseed
      obtain rfl := Except.error.inj h
      rw [seed_eq] at hseed
      exact .append_left (.of_foldlM (fun a : String × Item W => .seed a.1 a.2)
        (fun _ _ _ => Completes.of_seedItem) (fun _ _ => Breaks.of_seedItem) hseed) _
  obtain ⟨task, rest, t, hreaches, hstop⟩ := hbreaks []
  rw [List.append_nil] at hreaches
  exact ⟨task, rest, t, hreaches, hstop⟩

/-! ### What performing a task comes to -/

/-- The ways in which a task is performed: an item of an axiom is new or known, waiting positions
are expanded from the next one on, a rule is tried with choices of other positions, it does not fire
or its consequences have to be merged, and a consequence is merged. -/
inductive TaskStep (settings : Settings) (schema : Schema W) (s : State W) :
    Task W → Moment W → Prop where
  | seed {name : String} {x : Item W} {t : State W} (hstep : MergeStep settings s x ⟨name, []⟩ t) :
      TaskStep settings schema s (.seed name x) ⟨[], t⟩
  | known {name : String} {x : Item W} : TaskStep settings schema s (.seed name x) ⟨[], s⟩
  | done : TaskStep settings schema s .drain ⟨[], s⟩
  | next {first : ℕ} {agenda : Agenda} (hnext : s.agenda.next? = some (first, agenda)) :
      TaskStep settings schema s .drain
        ⟨schema.rules.map (.tryRule first) ++ [.drain], ⟨s.chart, agenda⟩⟩
  | tryRule {first : ℕ} {rule : Rule W} {choices : List (List ℕ)}
      (hnodup : ∀ positions ∈ choices, positions.Nodup) :
      TaskStep settings schema s (.tryRule first rule) ⟨choices.map (.tryAt rule), s⟩
  | idle {rule : Rule W} {positions : List ℕ} :
      TaskStep settings schema s (.tryAt rule positions) ⟨[], s⟩
  | fire {rule : Rule W} {positions : List ℕ} {xs : List (Item W)} {f : Firing W}
      (hxs : positions.map s.chart.item? = xs.map some) (hf : rule.fire? xs = some f) :
      TaskStep settings schema s (.tryAt rule positions)
        ⟨f.items.map fun x => .merge x ⟨f.name, positions.mergeSort⟩, s⟩
  | merge {x : Item W} {d : Derivation} {t : State W} (hstep : MergeStep settings s x d t) :
      TaskStep settings schema s (.merge x d) ⟨[], t⟩

lemma TaskStep.of_perform {task : Task W} (h : task.perform settings schema s = .ok m) :
    TaskStep settings schema s task m := by
  cases task with
  | seed name x =>
      obtain ⟨t, ht, rfl⟩ := exists_of_map_eq_ok h
      rcases MergeStep.of_seedItem ht with ⟨-, hstep⟩ | ⟨-, rfl⟩
      · exact .seed hstep
      · exact .known
  | drain =>
      rw [Task.perform] at h
      split at h
      · exact Except.ok.inj h ▸ .done
      · rename_i hnext
        exact Except.ok.inj h ▸ .next hnext
  | tryRule first rule =>
      rw [Task.perform] at h
      split at h
      · -- a rule without antecedents has no choices
        have hstep : TaskStep settings schema s (.tryRule first rule)
            ⟨([] : List (List ℕ)).map (.tryAt rule), s⟩ := .tryRule nofun
        exact Except.ok.inj h ▸ hstep
      · rename_i needed _
        have hstep : TaskStep settings schema s (.tryRule first rule)
            ⟨((State.otherPositions s.chart.size first needed).map (first :: ·)).map
              (.tryAt rule), s⟩ := by
          refine .tryRule fun positions hpositions => ?_
          obtain ⟨others, hothers, rfl⟩ := List.mem_map.1 hpositions
          obtain ⟨hsorted, hother, -⟩ := State.mem_otherPositions.1 hothers
          exact List.nodup_cons.2 ⟨fun hfirst => (hother first hfirst).2 rfl, hsorted.nodup⟩
        rw [List.map_map] at hstep
        exact Except.ok.inj h ▸ hstep
  | tryAt rule positions =>
      rw [Task.perform] at h
      split at h
      · exact Except.ok.inj h ▸ .idle
      · rename_i f hfires
        obtain ⟨xs, hxs, hf⟩ := Option.bind_eq_some_iff.1 hfires
        exact Except.ok.inj h ▸ .fire (mapM_eq_some_iff.1 hxs) hf
  | merge x d =>
      obtain ⟨t, ht, rfl⟩ := exists_of_map_eq_ok h
      exact .merge (.of_merge ht)

/-! ### What holds at every moment -/

/-- A property of states and of tasks that are left, which holds at the beginning of a run and is
preserved by every task, also for the tasks that are left. -/
structure Invariant (settings : Settings) (schema : Schema W) (P : State W → Prop)
    (T : State W → Task W → Prop) : Prop where
  empty : P .empty
  seed : ∀ name x, (name, x) ∈ schema.axiomItems → T .empty (.seed name x)
  drain : T .empty .drain
  perform : ∀ s task m, P s → T s task → TaskStep settings schema s task m →
    P m.state ∧ (∀ sub ∈ m.tasks, T m.state sub) ∧ ∀ other, T s other → T m.state other

/-- An invariant holds at every moment. -/
theorem Invariant.of_reaches {P : State W → Prop} {T : State W → Task W → Prop}
    (h : Invariant settings schema P T) (hm : Moment.Reaches settings schema (.start schema) m) :
    P m.state ∧ ∀ task ∈ m.tasks, T m.state task := by
  induction hm with
  | refl =>
      refine ⟨h.empty, fun task htask => ?_⟩
      rcases List.mem_append.1 htask with htask | htask
      · obtain ⟨a, ha, rfl⟩ := List.mem_map.1 htask
        exact h.seed a.1 a.2 ha
      · rw [List.mem_singleton.1 htask]
        exact h.drain
  | tail _ hstep ih =>
      cases hstep with
      | @perform task rest s m hperform =>
          obtain ⟨hs, htasks⟩ := ih
          obtain ⟨hfirst, hrest⟩ := List.forall_mem_cons.1 htasks
          obtain ⟨hstate, hsubs, hothers⟩ := h.perform s task m hs hfirst (.of_perform hperform)
          refine ⟨hstate, fun other hother => ?_⟩
          rcases List.mem_append.1 hother with hother | hother
          · exact hsubs other hother
          · exact hothers other (hrest other hother)

/-! ### What holds of all items -/

/-- Whether a task can only bring items with a property into the chart. -/
def Task.Carries (schema : Schema W) (Holds : Item W → Prop) : Task W → Prop
  | seed _ x => Holds x
  | drain => True
  | tryRule _ rule => rule ∈ schema.rules
  | tryAt rule _ => rule ∈ schema.rules
  | merge x _ => Holds x

/-- What axioms have and what rules and merges preserve is an invariant. -/
lemma Invariant.of_merges {Holds : Item W → Prop}
    (hgiven : ∀ a ∈ schema.axioms, ∀ x ∈ a.items, Holds x)
    (hfire : ∀ rule ∈ schema.rules, ∀ (xs : List (Item W)) (f : Firing W), (∀ x ∈ xs, Holds x) →
      rule.fire? xs = some f → ∀ y ∈ f.items, Holds y)
    (hmerge : ∀ (s t : State W) (x : Item W) (d : Derivation), s.All Holds → Holds x →
      MergeStep settings s x d t → t.All Holds) :
    Invariant settings schema (State.All Holds) fun _ task => task.Carries schema Holds where
  empty := ⟨State.consistent_empty, by rintro x ⟨i, hi⟩; simp [State.empty] at hi⟩
  seed name x hx := by
    obtain ⟨a, ha, -, hmem⟩ := Schema.mem_axiomItems.1 hx
    exact hgiven a ha x hmem
  drain := trivial
  perform s task m hs htask hstep := by
    refine and_assoc.1 ⟨?_, fun other hother => hother⟩
    cases hstep with
    | seed hstep => exact ⟨hmerge _ _ _ _ hs htask hstep, by simp⟩
    | known => exact ⟨hs, by simp⟩
    | done => exact ⟨hs, by simp⟩
    | next hnext =>
        refine ⟨⟨hs.consistent.pop hnext, hs.holds⟩, fun sub hsub => ?_⟩
        rcases List.mem_append.1 hsub with hsub | hsub
        · obtain ⟨rule, hrule, rfl⟩ := List.mem_map.1 hsub
          exact hrule
        · rw [List.mem_singleton.1 hsub]
          trivial
    | tryRule hnodup =>
        refine ⟨hs, fun sub hsub => ?_⟩
        obtain ⟨positions, -, rfl⟩ := List.mem_map.1 hsub
        exact htask
    | idle => exact ⟨hs, by simp⟩
    | @fire rule positions xs f hxs hf =>
        refine ⟨hs, fun sub hsub => ?_⟩
        obtain ⟨y, hy, rfl⟩ := List.mem_map.1 hsub
        refine hfire rule htask xs f (fun x hx => ?_) hf y hy
        obtain ⟨i, -, hi⟩ := List.mem_map.1 (hxs ▸ List.mem_map_of_mem hx)
        exact hs.holds x ⟨i, hi⟩
    | merge hstep => exact ⟨hmerge _ _ _ _ hs htask hstep, by simp⟩

/-- What axioms have and what rules and the merging of trees preserve holds of all items of the
chart at every moment of a run. -/
theorem all_of_reaches {Holds : Item W → Prop} (hHolds : schema.Preserves Holds)
    (hm : Moment.Reaches settings schema (.start schema) m) : m.state.All Holds :=
  ((Invariant.of_merges hHolds.of_axiom hHolds.of_fire
    fun _ _ _ _ hs hx hstep => hs.of_mergeStep hHolds hx hstep).of_reaches hm).1

end DeductiveParsing.Deduction
