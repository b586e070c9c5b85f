/-
Sweeping until nothing is new. Rules are gone through in their order, each of them adds what it gives
from all that is known by then, and that is done again and again until a whole sweep adds nothing.

* `sweep`, `sweeps`: one sweep, and sweeps until the number of facts stays the same;
* `IsSettled`: facts that hold the first ones, are closed under the rules and have nothing in them
  that need not be there;
* `isSettled_of_sweeps`: sweeps end with settled facts, in whatever order the rules stand;
* `exists_sweeps`: they end, if only finitely many facts can be given.
-/
import Mathlib.Data.Finset.Card
import Mathlib.Tactic

namespace DeductiveParsing

variable {α : Type} [DecidableEq α]

/-- One sweep: the rules in their order, each with what it gives from what is known by then. -/
def sweep (rules : List (Finset α → Finset α)) (known : Finset α) : Finset α :=
  rules.foldl (fun known rule => known ∪ rule known) known

/-- Sweeps until one of them leaves the number of facts as it was, at most `fuel` of them. -/
def sweeps (rules : List (Finset α → Finset α)) : ℕ → Finset α → Option (Finset α)
  | 0, _ => none
  | fuel + 1, known =>
    let next := sweep rules known
    if next.card = known.card then some next else sweeps rules fuel next

/-- The least facts that hold the first ones and are closed under the rules: what is true of the
first ones and preserved by the rules is true of all of them. -/
structure IsSettled (rules : List (Finset α → Finset α)) (start known : Finset α) : Prop where
  start_subset : start ⊆ known
  closed : ∀ rule ∈ rules, rule known ⊆ known
  induction : ∀ P : α → Prop, (∀ x ∈ start, P x) →
    (∀ rule ∈ rules, ∀ facts : Finset α, (∀ x ∈ facts, P x) → ∀ x ∈ rule facts, P x) →
      ∀ x ∈ known, P x

variable {rules : List (Finset α → Finset α)} {start known : Finset α}

omit [DecidableEq α] in
/-- Settled facts lie in every set that holds the first ones and is not left by the rules. -/
lemma IsSettled.subset {bound : Finset α} (h : IsSettled rules start known) (hstart : start ⊆ bound)
    (hrules : ∀ rule ∈ rules, ∀ facts ⊆ bound, rule facts ⊆ bound) : known ⊆ bound :=
  h.induction (· ∈ bound) hstart hrules

/-! ### One sweep -/

lemma subset_sweep (rules : List (Finset α → Finset α)) (known : Finset α) :
    known ⊆ sweep rules known := by
  induction rules generalizing known with
  | nil => exact Finset.Subset.refl known
  | cons rule rules ih => exact Finset.subset_union_left.trans (ih (known ∪ rule known))

/-- What is true of all facts and preserved by the rules is true after a sweep. -/
lemma sweep_induction {P : α → Prop}
    (hrules : ∀ rule ∈ rules, ∀ facts : Finset α, (∀ x ∈ facts, P x) → ∀ x ∈ rule facts, P x)
    (hknown : ∀ x ∈ known, P x) : ∀ x ∈ sweep rules known, P x := by
  induction rules generalizing known with
  | nil => exact hknown
  | cons rule rules ih =>
      obtain ⟨hrule, hrules⟩ := List.forall_mem_cons.1 hrules
      refine ih hrules fun x hx => ?_
      rcases Finset.mem_union.1 hx with hx | hx
      · exact hknown x hx
      · exact hrule known hknown x hx

/-- If a sweep adds nothing, none of its rules has anything to add. -/
lemma closed_of_sweep_subset (h : sweep rules known ⊆ known) :
    ∀ rule ∈ rules, rule known ⊆ known := by
  induction rules with
  | nil => exact fun rule hrule => absurd hrule List.not_mem_nil
  | cons rule rules ih =>
      have hrule : rule known ⊆ known :=
        Finset.subset_union_right.trans ((subset_sweep rules _).trans h)
      have hsweep : sweep (rule :: rules) known = sweep rules known := by
        rw [sweep, List.foldl_cons, Finset.union_eq_left.2 hrule, sweep]
      exact List.forall_mem_cons.2 ⟨hrule, ih (hsweep ▸ h)⟩

/-! ### Sweeps -/

/-- When sweeps have ended, the facts are settled. -/
theorem isSettled_of_sweeps {fuel : ℕ} (h : sweeps rules fuel start = some known) :
    IsSettled rules start known := by
  induction fuel generalizing start with
  | zero => cases h
  | succ fuel ih =>
      rw [sweeps] at h
      split at h
      · rename_i hcard
        obtain rfl := Option.some.inj h
        -- the last sweep has added nothing
        have heq : start = sweep rules start :=
          Finset.eq_of_subset_of_card_le (subset_sweep rules start) hcard.le
        refine ⟨subset_sweep rules start, closed_of_sweep_subset ?_, fun P hstart hrules =>
          sweep_induction hrules hstart⟩
        rw [← heq, ← heq]
      · have hlater := ih h
        exact ⟨(subset_sweep rules start).trans hlater.start_subset, hlater.closed,
          fun P hstart hrules => hlater.induction P (sweep_induction hrules hstart) hrules⟩

/-- Sweeps end if all facts lie in a finite set: each sweep but the last one brings more of them. -/
theorem exists_sweeps {bound : Finset α} (hstart : start ⊆ bound)
    (hrules : ∀ rule ∈ rules, ∀ facts ⊆ bound, rule facts ⊆ bound) :
    ∃ fuel known, sweeps rules fuel start = some known := by
  have hwithin : ∀ facts ⊆ bound, sweep rules facts ⊆ bound := fun facts hfacts =>
    sweep_induction (P := (· ∈ bound)) hrules hfacts
  suffices hends : ∀ (room : ℕ) (facts : Finset α), facts ⊆ bound →
      bound.card < facts.card + room → ∃ known, sweeps rules room facts = some known by
    exact ⟨bound.card + 1, hends _ start hstart (by omega)⟩
  intro room
  induction room with
  | zero =>
      intro facts hfacts hroom
      have hle := Finset.card_le_card hfacts
      omega
  | succ room ih =>
      intro facts hfacts hroom
      rw [sweeps]
      split
      · exact ⟨_, rfl⟩
      · rename_i hmore
        have hle := Finset.card_le_card (subset_sweep rules facts)
        exact ih _ (hwithin facts hfacts) (by omega)

end DeductiveParsing
