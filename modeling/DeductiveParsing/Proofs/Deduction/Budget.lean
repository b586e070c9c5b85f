/-
Runs that come to an end because what is left to do becomes less.

* `Budget`: what holds of all states of a run, and a number that merging does not increase and that
  is smaller when a position has been taken off the agenda;
* `exists_run_of_budget`: a run with a budget ends.
-/
import DeductiveParsing.Proofs.Deduction.Exhaustion

namespace DeductiveParsing.Deduction

variable {W : Type} [Weight W] {settings : Settings} {schema : Schema W} {s : State W}

/-- A budget for a run: a property of states that suitable items preserve when they are merged, and
what is left to do. Items that suit a state suit those that it grows into. -/
structure Budget (settings : Settings) (schema : Schema W) where
  Holds : State W → Prop
  Suits : State W → Item W → Prop
  left : State W → ℕ
  holds_empty : Holds .empty
  suits_axiom : ∀ s, Holds s → ∀ a ∈ schema.axioms, ∀ x ∈ a.items, Suits s x
  suits_fire : ∀ s, Holds s → ∀ rule ∈ schema.rules, ∀ (xs : List (Item W)) (f : Firing W),
    (∀ x ∈ xs, x ∈ s.chart.items) → rule.fire? xs = some f → ∀ y ∈ f.items, Suits s y
  exists_merge : ∀ s x d, Holds s → Suits s x → ∃ t, s.merge settings x d = .ok t ∧ Holds t ∧
    left t ≤ left s ∧ ∀ y, Suits s y → Suits t y
  pop : ∀ s first agenda, Holds s → s.agenda.next? = some (first, agenda) →
    Holds ⟨s.chart, agenda⟩ ∧ left ⟨s.chart, agenda⟩ < left s

/-- A fold succeeds if all its steps do. -/
lemma exists_foldlM {σ α ε : Type} {f : σ → α → Except ε σ} {P : σ → Prop} {l : List α} {s : σ}
    (hs : P s) (hstep : ∀ s x, x ∈ l → P s → ∃ t, f s x = .ok t ∧ P t) :
    ∃ t, l.foldlM f s = .ok t ∧ P t := by
  induction l generalizing s with
  | nil => exact ⟨s, rfl, hs⟩
  | cons x l ih =>
      obtain ⟨u, hu, hPu⟩ := hstep s x List.mem_cons_self hs
      obtain ⟨t, ht, hPt⟩ := ih hPu fun s y hy => hstep s y (List.mem_cons_of_mem _ hy)
      exact ⟨t, bind_eq_ok.2 ⟨u, hu, ht⟩, hPt⟩

namespace Budget

variable (budget : Budget settings schema)

/-- A state within the budget that has at most a given amount left to do. -/
def Allows (n : ℕ) (s : State W) : Prop := budget.Holds s ∧ budget.left s ≤ n

variable {budget} {n : ℕ}

lemma exists_applyAt (hs : budget.Allows n s) {rule : Rule W} (hrule : rule ∈ schema.rules)
    (positions : List ℕ) :
    ∃ t : State W, s.applyAt settings rule positions = .ok t ∧ budget.Allows n t := by
  rw [State.applyAt]
  split
  · exact ⟨s, rfl, hs⟩
  · rename_i f hf
    obtain ⟨xs, hxs, hf⟩ := Option.bind_eq_some_iff.1 hf
    have hmem := Chart.mem_items_of_map (mapM_eq_some_iff.1 hxs)
    have hsuits := budget.suits_fire s hs.1 rule hrule xs f hmem hf
    -- what suits the state in which the rule fires suits all states that this grows into
    refine (exists_foldlM (P := fun u : State W => budget.Allows n u ∧
      ∀ y, budget.Suits s y → budget.Suits u y) ⟨hs, fun _ => id⟩ fun u y hy hu => ?_).imp
        fun t ht => ⟨ht.1, ht.2.1⟩
    obtain ⟨t, ht, hholds, hleft, hgrown⟩ :=
      budget.exists_merge u y ⟨f.name, positions.mergeSort⟩ hu.1.1 (hu.2 y (hsuits y hy))
    exact ⟨t, ht, ⟨hholds, hleft.trans hu.1.2⟩, fun z hz => hgrown z (hu.2 z hz)⟩

/-- Expanding a position succeeds within the budget. -/
lemma exists_expand (hs : budget.Allows n s) (first : ℕ) :
    ∃ t, State.expand settings schema first s = .ok t ∧ budget.Allows n t := by
  refine exists_foldlM hs fun u rule hrule hu => ?_
  rw [State.applyRule]
  split
  · exact ⟨u, rfl, hu⟩
  · exact exists_foldlM hu fun v others _ hv => exists_applyAt hv hrule (first :: others)

/-- As many expansions as there is left to do are enough. -/
lemma exists_drain {fuel : ℕ} (hs : budget.Allows fuel s) :
    ∃ t, drain settings schema fuel s = .ok t := by
  induction fuel generalizing s with
  | zero =>
      rw [drain]
      split
      · exact ⟨s, rfl⟩
      · rename_i next hnext
        have hlt := (budget.pop s next.1 next.2 hs.1 hnext).2
        have hle := hs.2
        omega
  | succ fuel ih =>
      rw [drain]
      split
      · exact ⟨s, rfl⟩
      · rename_i first agenda hnext
        obtain ⟨hholds, hlt⟩ := budget.pop s first agenda hs.1 hnext
        have hpop : budget.Allows fuel ⟨s.chart, agenda⟩ :=
          ⟨hholds, Nat.le_of_lt_succ (hlt.trans_le hs.2)⟩
        obtain ⟨t, ht, hallows⟩ := exists_expand hpop first
        rw [ht]
        exact ih hallows

/-- The axioms lead to a state within the budget. -/
lemma exists_seed (budget : Budget settings schema) :
    ∃ s : State W, seed settings schema = .ok s ∧ budget.Holds s := by
  rw [seed_eq]
  refine exists_foldlM budget.holds_empty fun s a ha hs => ?_
  rw [seedItem]
  split
  · exact ⟨s, rfl, hs⟩
  · rename_i hnew
    obtain ⟨b, hb, -, hx⟩ := Schema.mem_axiomItems.1 (show (a.1, a.2) ∈ schema.axiomItems from ha)
    obtain ⟨t, ht, hholds, -⟩ :=
      budget.exists_merge s a.2 ⟨a.1, []⟩ hs (budget.suits_axiom s hs b hb a.2 hx)
    rw [State.merge, hnew] at ht
    exact ⟨t, ht, hholds⟩

end Budget

/-- A run with a budget ends. -/
theorem exists_run_of_budget (budget : Budget settings schema) :
    ∃ fuel o, run settings schema fuel = .ok o := by
  obtain ⟨s, hseed, hs⟩ := budget.exists_seed
  have hallows : budget.Allows (budget.left s) s := ⟨hs, le_rfl⟩
  obtain ⟨t, ht⟩ := Budget.exists_drain hallows
  refine ⟨budget.left s, .ofChart schema.goals t.chart, ?_⟩
  rw [run, finalState, hseed]
  simp only [ht]
  rfl

end DeductiveParsing.Deduction
