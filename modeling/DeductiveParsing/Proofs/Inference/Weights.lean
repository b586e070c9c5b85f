/-
What the rules conclude about weights.

* `Firing.IsWeightless`: a computation whose consequences have no weights, shown for every rule
  that is not one of parsing with weights;
* `WeightedRule.cores_eq_of_join`: two antecedents that are joined in both orders have the same
  weight together in both;
* `Rule.exists_fire?_perm`: with exact weights, forms and weights of consequences do not depend on
  the order of the antecedents.
-/
import DeductiveParsing.Proofs.Weight.Exact
import DeductiveParsing.Proofs.Weighted.Rules

namespace DeductiveParsing

variable {W : Type}

/-! ### Consequences without weights -/

namespace Firing

/-- Whether no consequence of a computation has a weight. -/
def IsWeightless (o : Option (Firing W)) : Prop :=
  ∀ f, o = some f → ∀ y ∈ f.items, y.weight = none

namespace IsWeightless

lemma none : IsWeightless (Option.none : Option (Firing W)) := nofun

lemma one {name : String} {y : Item W} (hy : y.weight = Option.none) :
    IsWeightless (Firing.one name y) := by
  rintro _ ⟨⟩ z hz
  rw [List.mem_singleton.1 hz, hy]

lemma ofItems {name : String} {items : List (Item W)} (h : ∀ y ∈ items, y.weight = Option.none) :
    IsWeightless (Firing.ofItems name items) := by
  intro f hf
  obtain ⟨-, hf⟩ := Option.ite_none_left_eq_some.1 hf
  obtain rfl := Option.some.inj hf
  exact h

lemma ofItems_map {α : Type} {name : String} {item : α → Item W} {l : List α}
    (h : ∀ a, (item a).weight = Option.none) : IsWeightless (Firing.ofItems name (l.map item)) := by
  refine ofItems fun y hy => ?_
  obtain ⟨a, -, rfl⟩ := List.mem_map.1 hy
  exact h a

lemma bind {α : Type} {o : Option α} {f : α → Option (Firing W)} (h : ∀ a, IsWeightless (f a)) :
    IsWeightless (o.bind f) := by
  intro g hg
  obtain ⟨a, -, hg⟩ := Option.bind_eq_some_iff.1 hg
  exact h a g hg

lemma ite {c : Prop} [Decidable c] {f g : Option (Firing W)} (hf : IsWeightless f)
    (hg : IsWeightless g) : IsWeightless (if c then f else g) := by
  split
  · exact hf
  · exact hg

lemma eitherOrder? {fire : Item W → Item W → Option (Firing W)}
    (h : ∀ x y, IsWeightless (fire x y)) (x y : Item W) :
    IsWeightless (Firing.eitherOrder? fire x y) := fun f hf =>
  (eq_some_of_eitherOrder? hf).elim (h x y f) (h y x f)

end IsWeightless

end Firing

open Firing

section Unweighted

open Firing.IsWeightless

lemma TopDownRule.isWeightless (rule : TopDownRule) :
    ∀ xs : List (Item W), IsWeightless (rule.fire xs)
  | [_] => bind fun stack => bind fun _ => by
      cases stack with
      | nil => exact none
      | cons top rest => cases rule <;> exact ite (one rfl) none
  | [] | _ :: _ :: _ => none

lemma ShiftReduceRule.isWeightless (rule : ShiftReduceRule) :
    ∀ xs : List (Item W), IsWeightless (rule.fire xs)
  | [_] => bind fun _ => bind fun _ => by cases rule <;> exact bind fun _ => one rfl
  | [] | _ :: _ :: _ => none

lemma EarleyRule.isWeightless_completeWith (x y : Item W) : IsWeightless (completeWith x y) :=
  bind fun _ => bind fun _ => bind fun _ => bind fun _ => bind fun _ => bind fun _ =>
    ite (bind fun _ => one rfl) none

lemma EarleyRule.isWeightless (rule : EarleyRule) (xs : List (Item W)) :
    IsWeightless (rule.fire xs) := by
  rw [fire.eq_def]
  split
  · refine bind fun _ => bind fun _ => bind fun _ => bind fun _ => ?_
    split
    · exact ite (one rfl) none
    · exact none
  · exact bind fun _ => bind fun _ => ite (one rfl) none
  · exact IsWeightless.eitherOrder? isWeightless_completeWith _ _
  · exact none

lemma LeftCornerRule.isWeightless (rule : LeftCornerRule) :
    ∀ xs : List (Item W), IsWeightless (rule.fire xs)
  | [_] => bind fun _ => bind fun _ => bind fun _ => by
      split
      · exact ite (one rfl) none
      · exact ite (one rfl) none
      · exact ite (one rfl) none
      · exact none
  | [] | _ :: _ :: _ => none

lemma LrRule.isWeightless (rule : LrRule) : ∀ xs : List (Item W), IsWeightless (rule.fire xs)
  | [_] => bind fun _ => bind fun _ => bind fun _ => by
      cases rule with
      | shift table tokens => exact bind fun _ => bind fun _ => one rfl
      | reduce n table tokens =>
          exact ite (bind fun _ => bind fun _ => bind fun _ => bind fun _ => one rfl) none
  | [] | _ :: _ :: _ => none

lemma CykRule.isWeightless_joinTwo (p : Production) (x y : Item W) :
    IsWeightless (joinTwo p x y) :=
  bind fun _ => bind fun _ => bind fun _ => bind fun _ => bind fun _ => bind fun _ =>
    ite (one rfl) none

lemma CykRule.weight_of_joinAll {p : Production} {spans : List (Item W)} {y : Item W}
    (h : joinAll p spans = some y) : y.weight = Option.none := by
  simp only [joinAll, Option.bind_eq_bind, Option.bind_eq_some_iff] at h
  obtain ⟨-, -, _, -, _, -, h⟩ := h
  rw [← Option.some.inj h]
  rfl

lemma CykRule.isWeightless (rule : CykRule) (xs : List (Item W)) :
    IsWeightless (rule.fire xs) := by
  rw [fire.eq_def]
  split
  · exact IsWeightless.eitherOrder? (isWeightless_joinTwo _) _ _
  · exact bind fun _ => bind fun _ => bind fun _ => ite (one rfl) none
  · refine ite ?_ (IsWeightless.ofItems fun y hy => ?_)
    · split
      · exact bind fun _ => bind fun _ => bind fun _ => ite (one rfl) none
      · exact none
    · obtain ⟨spans, -, hjoin⟩ := List.mem_filterMap.1 (Choice.mem_of_mem_distinctBy hy)
      exact weight_of_joinAll hjoin
  · exact none

lemma UngerRule.weight_of_mem_questions {p : Production} {i j : ℕ} {y : Item W}
    (hy : y ∈ questions p i j) : y.weight = Option.none := by
  obtain ⟨spans, -, hy⟩ := List.mem_flatMap.1 (Choice.mem_of_mem_distinctBy hy)
  obtain ⟨_, -, rfl⟩ := List.mem_map.1 hy
  rfl

lemma UngerRule.isWeightless (rule : UngerRule) (xs : List (Item W)) :
    IsWeightless (rule.fire xs) := by
  rw [fire.eq_def]
  split
  · exact bind fun _ => bind fun _ => bind fun _ =>
      ite (IsWeightless.ofItems fun _ => weight_of_mem_questions) none
  · exact bind fun _ => bind fun _ => bind fun _ => bind fun _ => ite (one rfl) none
  · intro f hf
    obtain ⟨order, -, horder⟩ := List.exists_of_findSome?_eq_some hf
    obtain ⟨-, -, i, j, -, -, -, -, -, rfl⟩ := answer?_eq_some horder
    exact fun y hy => List.mem_singleton.1 hy ▸ rfl
  · exact none

lemma TreeCykRule.isWeightless (rule : TreeCykRule) (xs : List (Item W)) :
    IsWeightless (rule.fire xs) := by
  have hjoin : ∀ (g : TreeAdjoining.Grammar) (x y : Item W), IsWeightless (joinTwo g x y) :=
    fun _ _ _ => bind fun _ => bind fun _ => bind fun _ => bind fun _ => ite (one rfl) none
  have hwrap : ∀ (g : TreeAdjoining.Grammar) (x y : Item W), IsWeightless (wrap g x y) :=
    fun _ _ _ => bind fun _ => bind fun _ => bind fun _ => bind fun _ => ite (one rfl) none
  rw [fire.eq_def]
  split
  · exact bind fun _ => bind fun _ => ite (one rfl) none
  · exact IsWeightless.eitherOrder? (hjoin _) _ _
  · exact bind fun _ => ite none (one rfl)
  · exact bind fun _ => bind fun _ => bind fun _ => ite (one rfl) none
  · exact IsWeightless.eitherOrder? (hwrap _) _ _
  · exact none

lemma TreeEarleyRule.isWeightless_beginSites (g : TreeAdjoining.Grammar) (x : Item W) :
    IsWeightless (beginSites g x) := by
  refine bind fun _ => ite (IsWeightless.ofItems fun y hy => ?_) none
  obtain ⟨_, -, hy⟩ := List.mem_filterMap.1 hy
  obtain ⟨_, -, rfl⟩ := Option.map_eq_some_iff.1 hy
  rfl

lemma TreeEarleyRule.isWeightless (rule : TreeEarleyRule) (xs : List (Item W)) :
    IsWeightless (rule.fire xs) := by
  have hfill : ∀ (g : TreeAdjoining.Grammar) (x y : Item W), IsWeightless (fillFoot g x y) :=
    fun _ _ _ => bind fun _ => bind fun _ => ite (one rfl) none
  have hclose : ∀ (g : TreeAdjoining.Grammar) (x y : Item W), IsWeightless (closeNode g x y) :=
    fun _ _ _ => bind fun _ => bind fun _ => bind fun _ => bind fun _ => ite (one rfl) none
  have hwrap : ∀ (g : TreeAdjoining.Grammar) (x y : Item W), IsWeightless (wrap g x y) :=
    fun _ _ _ => bind fun _ => bind fun _ => bind fun _ => bind fun _ => ite (one rfl) none
  rw [fire.eq_def]
  split
  · exact bind fun _ => bind fun _ => ite (one rfl) none
  · exact bind fun _ => bind fun _ => ite (one rfl) none
  · exact bind fun _ => ite (ofItems_map fun _ => rfl) none
  · exact bind fun _ => bind fun _ => ite (one rfl) none
  · exact isWeightless_beginSites _ _
  · exact IsWeightless.eitherOrder? (hfill _) _ _
  · exact IsWeightless.eitherOrder? (hclose _) _ _
  · exact IsWeightless.eitherOrder? (hwrap _) _ _
  · exact bind fun _ => ite (one rfl) none
  · exact bind fun _ => bind fun _ => ite (one rfl) none
  · exact bind fun _ => bind fun _ => bind fun _ => ite (one rfl) none
  · exact bind fun _ => bind fun _ =>
      ite (ofItems_map fun _ => rfl) none
  · exact bind fun _ => bind fun _ => bind fun _ => bind fun _ => ite (one rfl) none
  · exact none

/-- Only the rules of parsing with weights conclude items with weights. -/
theorem Rule.isWeightless_fire? [Weight W] {rule : Rule W} (hrule : rule.IsUnweighted)
    (xs : List (Item W)) : IsWeightless (rule.fire? xs) := by
  refine ite ?_ none
  cases rule with
  | topDown r => exact r.isWeightless xs
  | shiftReduce r => exact r.isWeightless xs
  | earley r => exact r.isWeightless xs
  | leftCorner r => exact r.isWeightless xs
  | cyk r => exact r.isWeightless xs
  | unger r => exact r.isWeightless xs
  | lr r => exact r.isWeightless xs
  | weighted r => exact hrule.elim
  | treeCyk r => exact r.isWeightless xs
  | treeEarley r => exact r.isWeightless xs

end Unweighted

/-! ### Orders of the antecedents -/

namespace WeightedRule

section Fields

variable [Weight W] {p : Weighted.Production W} {e : Weighted.Estimates W} {x y : Item W}
  {f : Firing W}

/-- What two spans with probabilities have to say to be joined, and the weight that they have
together. -/
lemma core_of_joinProduct (h : joinProduct p x y = some f) :
    ∃ i l m v w, x.index? 1 = some i ∧ x.index? 2 = some l ∧ y.index? 1 = some (i + l) ∧
      y.index? 2 = some m ∧ x.weight = some v ∧ y.weight = some w ∧
        f.items.map Item.core = [(Cyk.form p.production.lhs i (l + m),
          some (Weight.mul (Weight.mul p.weight v) w))] := by
  simp only [joinProduct, Option.bind_eq_bind, Option.bind_eq_some_iff,
    Option.ite_none_right_eq_some] at h
  obtain ⟨_, -, i, hi, l, hl, _, -, j, hj, m, hm, v, hv, w, hw, ⟨rfl, -⟩, h⟩ := h
  exact ⟨i, l, m, v, w, hi, hl, hj, hm, hv, hw, by rw [← Option.some.inj h]; rfl⟩

/-- What two spans with costs have to say to be joined, and the weight that they have together. -/
lemma core_of_joinGuided (h : joinGuided p e x y = some f) :
    ∃ b i j c k v w u₁ u₂ u, x.symbol? 0 = some b ∧ x.index? 1 = some i ∧ x.index? 2 = some j ∧
      y.symbol? 0 = some c ∧ y.index? 1 = some j ∧ y.index? 2 = some k ∧ i ≤ j ∧ j ≤ k ∧
        x.weight = some v ∧ y.weight = some w ∧ e.outside? b i (j - i) = some u₁ ∧
          e.outside? c j (k - j) = some u₂ ∧
            e.outside? p.production.lhs i (k - i) = some u ∧
              f.items.map Item.core = [(Cyk.form p.production.lhs i k,
                some (Weight.add (Weight.add (Weight.add (Weight.cost p.weight)
                  (Weight.sub v u₁)) (Weight.sub w u₂)) u))] := by
  simp only [joinGuided, Option.bind_eq_bind, Option.bind_eq_some_iff,
    Option.ite_none_right_eq_some] at h
  obtain ⟨b, hb, i, hi, j, hj, c, hc, _, hj', k, hk, v, hv, w, hw, ⟨rfl, hij, hjk, -⟩,
    u₁, hu₁, u₂, hu₂, u, hu, h⟩ := h
  exact ⟨b, i, j, c, k, v, w, u₁, u₂, u, hb, hi, hj, hc, hj', hk, hij, hjk, hv, hw, hu₁, hu₂, hu,
    by rw [← Option.some.inj h]; rfl⟩

end Fields

variable {K : Type} [Numbers K] {x y : Item (Exact K)} {f g : Firing (Exact K)}

lemma cores_eq_of_joinProduct {p : Weighted.Production (Exact K)}
    (hf : joinProduct p x y = some f) (hg : joinProduct p y x = some g) :
    g.items.map Item.core = f.items.map Item.core := by
  obtain ⟨i, l, m, v, w, hi, hl, hj, hm, hv, hw, hfcore⟩ := core_of_joinProduct hf
  obtain ⟨j, m', l', w', v', hj', hm', hi', hl', hw', hv', hgcore⟩ := core_of_joinProduct hg
  obtain rfl : i + l = j := Option.some.inj (hj.symm.trans hj')
  obtain rfl : m = m' := Option.some.inj (hm.symm.trans hm')
  obtain rfl : l = l' := Option.some.inj (hl.symm.trans hl')
  obtain rfl : v = v' := Option.some.inj (hv.symm.trans hv')
  obtain rfl : w = w' := Option.some.inj (hw.symm.trans hw')
  -- both spans are empty and begin at one place
  have hplace : i = i + l + m := Option.some.inj (hi.symm.trans hi')
  obtain ⟨rfl, rfl⟩ : l = 0 ∧ m = 0 := by omega
  rw [hgcore, hfcore, Exact.mul_right_comm]
  rfl

lemma cores_eq_of_joinGuided {p : Weighted.Production (Exact K)}
    {e : Weighted.Estimates (Exact K)} (hf : joinGuided p e x y = some f)
    (hg : joinGuided p e y x = some g) : g.items.map Item.core = f.items.map Item.core := by
  obtain ⟨b, i, j, c, k, v, w, u₁, u₂, u, hb, hi, hj, hc, hj', hk, hij, hjk, hv, hw, hu₁, hu₂, hu,
    hfcore⟩ := core_of_joinGuided hf
  obtain ⟨c', i', k', b', j₁, w', v', u₂', u₁', u', hc', hi', hk', hb', hk₁, hj₁, -, -, hw', hv',
    hu₂', hu₁', hu', hgcore⟩ := core_of_joinGuided hg
  obtain rfl : b = b' := Option.some.inj (hb.symm.trans hb')
  obtain rfl : c = c' := Option.some.inj (hc.symm.trans hc')
  obtain rfl : v = v' := Option.some.inj (hv.symm.trans hv')
  obtain rfl : w = w' := Option.some.inj (hw.symm.trans hw')
  obtain rfl : j = i' := Option.some.inj (hj'.symm.trans hi')
  obtain rfl : j = j₁ := Option.some.inj (hj.symm.trans hj₁)
  obtain rfl : k = k' := Option.some.inj (hk.symm.trans hk')
  obtain rfl : i = k := Option.some.inj (hi.symm.trans hk₁)
  -- both spans are empty and begin at one place, so they have the same estimates in both orders
  obtain rfl : i = j := hij.antisymm hjk
  obtain rfl : u₁ = u₁' := Option.some.inj (hu₁.symm.trans hu₁')
  obtain rfl : u₂ = u₂' := Option.some.inj (hu₂.symm.trans hu₂')
  obtain rfl : u = u' := Option.some.inj (hu.symm.trans hu')
  rw [hgcore, hfcore, Exact.add_right_comm (Weight.cost p.weight)]

/-- Two antecedents that are joined in both orders have the same weight together in both. -/
lemma cores_eq_of_join {r : WeightedRule (Exact K)} (hf : r.join x y = some f)
    (hg : r.join y x = some g) : g.items.map Item.core = f.items.map Item.core := by
  cases r with
  | product p => exact cores_eq_of_joinProduct hf hg
  | guided p e => exact cores_eq_of_joinGuided hf hg

/-- From the other order of two antecedents the same weight is concluded. -/
lemma exists_fire?_swap {r : WeightedRule (Exact K)}
    (hf : Firing.eitherOrder? r.join x y = some f) :
    ∃ g, Firing.eitherOrder? r.join y x = some g ∧
      g.items.map Item.core = f.items.map Item.core := by
  cases hxy : r.join x y with
  | none =>
      have hyx : r.join y x = some f := by simpa [Firing.eitherOrder?, hxy] using hf
      exact ⟨f, by rw [Firing.eitherOrder?, hyx], rfl⟩
  | some f' =>
      obtain rfl : f' = f := by simpa [Firing.eitherOrder?, hxy] using hf
      cases hyx : r.join y x with
      | none => exact ⟨f', by rw [Firing.eitherOrder?, hyx, hxy], rfl⟩
      | some g => exact ⟨g, by rw [Firing.eitherOrder?, hyx], cores_eq_of_join hxy hyx⟩

end WeightedRule

section Exact

variable {K : Type} [Numbers K]

/-- What an unambiguous rule concludes from antecedents, it concludes from them in any order, with
the same weights. -/
theorem Rule.exists_fire?_perm {rule : Rule (Exact K)} (hplain : rule.IsUnambiguous)
    {xs ys : List (Item (Exact K))} {f : Firing (Exact K)} (hperm : ys.Perm xs)
    (hf : rule.fire? xs = some f) :
    ∃ g, rule.fire? ys = some g ∧ g.items.map Item.core = f.items.map Item.core := by
  by_cases hrule : rule.IsUnweighted
  · have hshape := map_shape_of_forms hrule hplain (hperm.map Item.form)
    rw [hf] at hshape
    obtain ⟨g, hg, hgf⟩ := Option.map_eq_some_iff.1 hshape
    -- consequences without weights differ in their forms at most
    have hcore : ∀ {zs : List (Item (Exact K))} {k}, rule.fire? zs = some k →
        k.items.map Item.core = (k.items.map Item.form).map fun form => (form, none) := by
      intro zs k hk
      rw [List.map_map]
      exact List.map_congr_left fun z hz =>
        Prod.ext rfl (isWeightless_fire? hrule zs k hk z hz)
    exact ⟨g, hg, by rw [hcore hg, hcore hf, (Prod.mk.inj hgf).2]⟩
  · cases rule with
    | weighted r =>
        obtain ⟨hlen, hfire⟩ := fire?_eq_some.1 hf
        have hlen' : ys.length = (Rule.weighted r).arity := hperm.length_eq.trans hlen
        obtain ⟨x, y, rfl⟩ := List.length_eq_two.1 hlen
        obtain ⟨x', y', rfl⟩ := List.length_eq_two.1 hlen'
        rcases eq_or_eq_of_perm_pair hperm with ⟨rfl, rfl⟩ | ⟨rfl, rfl⟩
        · exact ⟨f, hf, rfl⟩
        · obtain ⟨g, hg, hcores⟩ :=
            WeightedRule.exists_fire?_swap ((r.fire_pair _ _).symm.trans hfire)
          exact ⟨g, fire?_eq_some.2 ⟨hlen', (r.fire_pair _ _).trans hg⟩, hcores⟩
    | _ => exact absurd trivial hrule

end Exact

end DeductiveParsing
