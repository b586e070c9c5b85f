/-
Runs that keep the best derivations come to an end if there are finitely many items: an item is
changed to a better one at most as often as there are better ones.

* `Schema.Stock`: a finite set of items that has those of axioms and what rules conclude from it;
* `Stock.rank`: the number of items of the stock that are preferred to an item;
* `Budget.ofStock`, `exists_run_of_stock`: a run with a stock ends.
-/
import DeductiveParsing.Proofs.Deduction.Budget
import DeductiveParsing.Proofs.Deduction.Replacement

namespace DeductiveParsing

variable {W : Type} [Weight W]

/-- A stock for runs: a finite set of items that has those of axioms and all that rules conclude
from it. -/
structure Schema.Stock (schema : Schema W) where
  items : Set (Item W)
  finite : items.Finite
  produces : schema.Produces fun x => x ∈ items

namespace Schema.Stock

variable {schema : Schema W} (stock : schema.Stock)

/-- The forms of the items. -/
noncomputable def forms : Finset Form := stock.finite.toFinset.image Item.form

lemma form_mem {x : Item W} (hx : x ∈ stock.items) : x.form ∈ stock.forms :=
  Finset.mem_image_of_mem _ (stock.finite.mem_toFinset.2 hx)

/-- The number of items that a policy prefers to an item. -/
noncomputable def rank (policy : Policy) (x : Item W) : ℕ :=
  {y ∈ stock.items | policy.prefers y.weight x.weight = true}.ncard

lemma rank_le (policy : Policy) (x : Item W) : stock.rank policy x ≤ stock.items.ncard :=
  Set.ncard_le_ncard (Set.sep_subset _ _) stock.finite

/-- To a preferred item fewer are preferred. -/
lemma rank_lt [OrderedWeight W] {policy : Policy} {x y : Item W} (hx : x ∈ stock.items)
    (h : policy.prefers x.weight y.weight = true) : stock.rank policy x < stock.rank policy y := by
  refine Set.ncard_lt_ncard ⟨fun z hz => ⟨hz.1, Policy.prefers_trans hz.2 h⟩, fun hsub => ?_⟩
    (stock.finite.subset (Set.sep_subset _ _))
  have hself := (hsub ⟨hx, h⟩ : x ∈ {z ∈ stock.items | policy.prefers z.weight x.weight = true}).2
  rw [Policy.prefers_irrefl] at hself
  cases hself

/-- What is left to do at a position: to put an item there, and to improve it. -/
noncomputable def room (policy : Policy) (c : Chart W) (i : ℕ) : ℕ :=
  ((c.item? i).map (stock.rank policy)).getD (stock.items.ncard + 1)

end Schema.Stock

namespace Deduction

variable {settings : Settings} {schema : Schema W} {s t : State W} {x : Item W} {d : Derivation}

/-- The number of positions that wait, and what is left to do at the positions that there can be. -/
noncomputable def State.remainder (stock : schema.Stock) (policy : Policy) (s : State W) : ℕ :=
  s.agenda.toList.length + ∑ i ∈ Finset.range stock.forms.card, stock.room policy s.chart i

/-- Putting an item where less is left to do then does not increase the remainder. -/
lemma State.Puts.remainder_le {stock : schema.Stock} {policy : Policy} {i : ℕ}
    (h : s.Puts i x d t) (hs : s.Consistent) (hi : i < stock.forms.card)
    (hlt : stock.room policy t.chart i < stock.room policy s.chart i) :
    t.remainder stock policy ≤ s.remainder stock policy := by
  have hle : ∀ j ∈ Finset.range stock.forms.card,
      stock.room policy t.chart j ≤ stock.room policy s.chart j := by
    intro j _
    by_cases hij : j = i
    · exact hij ▸ hlt.le
    · rw [Schema.Stock.room, h.item?_eq, if_neg hij, Schema.Stock.room]
  have hsum := Finset.sum_lt_sum hle ⟨i, Finset.mem_range.2 hi, hlt⟩
  have hlength := Agenda.length_add hs.agenda i
  rw [State.remainder, State.remainder, h.agenda_eq]
  omega

/-- A consistent state all of whose items are in a stock. -/
structure State.IsStocked (stock : schema.Stock) (s : State W) : Prop where
  consistent : s.Consistent
  items_mem : ∀ x ∈ s.chart.items, x ∈ stock.items

lemma State.IsStocked.size_le {stock : schema.Stock} (hs : s.IsStocked stock) :
    s.chart.size ≤ stock.forms.card :=
  hs.consistent.indexed.size_le_card fun x hx => stock.form_mem (hs.items_mem x hx)

lemma exists_merge_of_stock [OrderedWeight W] (hpolicy : settings.policy ≠ .accumulate)
    (hlimit : settings.limit = none) {stock : schema.Stock} (hs : s.IsStocked stock)
    (hx : x ∈ stock.items) (d : Derivation) :
    ∃ t : State W, s.merge settings x d = .ok t ∧ t.IsStocked stock ∧
      t.remainder stock settings.policy ≤ s.remainder stock settings.policy := by
  obtain ⟨t, ht⟩ : ∃ t, s.merge settings x d = .ok t := by
    rw [State.merge]
    split
    · rw [State.insert, hlimit]
      exact ⟨_, rfl⟩
    · split <;> exact ⟨_, rfl⟩
  have hstocked : t.IsStocked stock := by
    refine ⟨(MergeStep.of_merge ht).consistent hs.consistent, fun y hy => ?_⟩
    rcases State.mem_items_of_merge hpolicy hs.consistent ht hy with hy | rfl
    · exact hs.items_mem y hy
    · exact hx
  refine ⟨t, ht, hstocked, ?_⟩
  rcases State.merge_cases hpolicy hs.consistent ht with ⟨i, hputs, hi⟩ | ⟨rfl, -⟩
  · have hroom : stock.room settings.policy t.chart i = stock.rank settings.policy x := by
      rw [Schema.Stock.room, hputs.item?_eq, if_pos rfl]
      rfl
    have hlt : i < t.chart.size := Chart.lt_size_iff.2 ⟨x, by rw [hputs.item?_eq, if_pos rfl]⟩
    refine hputs.remainder_le hs.consistent (hlt.trans_le hstocked.size_le) (hroom ▸ ?_)
    rcases hi with rfl | ⟨y, hy, -, hprefers⟩
    · rw [Schema.Stock.room, Chart.item?_eq_none le_rfl]
      exact Nat.lt_succ_of_le (stock.rank_le _ x)
    · rw [Schema.Stock.room, hy]
      exact stock.rank_lt hx hprefers
  · exact le_rfl

/-- A run with a stock that keeps the best derivations has a budget: the remainder. -/
noncomputable def Budget.ofStock [OrderedWeight W] (hpolicy : settings.policy ≠ .accumulate)
    (hlimit : settings.limit = none) (stock : schema.Stock) : Budget settings schema where
  Holds s := s.IsStocked stock
  Suits _ x := x ∈ stock.items
  left s := s.remainder stock settings.policy
  holds_empty := by
    refine ⟨State.consistent_empty, ?_⟩
    rintro x ⟨i, hi⟩
    simp [State.empty] at hi
  suits_axiom _ _ := stock.produces.of_axiom
  suits_fire s hs rule hrule xs f hxs :=
    stock.produces.of_fire rule hrule xs f fun x hx => hs.items_mem x (hxs x hx)
  exists_merge s x d hs hx := by
    obtain ⟨t, ht, hstocked, hle⟩ := exists_merge_of_stock hpolicy hlimit hs hx d
    exact ⟨t, ht, hstocked, hle, fun _ => id⟩
  pop s first agenda hs hnext := by
    refine ⟨⟨hs.consistent.pop hnext, hs.items_mem⟩, ?_⟩
    rw [State.remainder, State.remainder, Agenda.toList_of_next? hnext, List.length_cons]
    exact Nat.add_lt_add_right (Nat.lt_succ_self _) _

/-- If there is a stock for its items, a run that keeps the best derivations ends. -/
theorem exists_run_of_stock [OrderedWeight W] (hpolicy : settings.policy ≠ .accumulate)
    (hlimit : settings.limit = none) (stock : schema.Stock) :
    ∃ fuel o, run settings schema fuel = .ok o :=
  exists_run_of_budget (.ofStock hpolicy hlimit stock)

end Deduction

end DeductiveParsing
