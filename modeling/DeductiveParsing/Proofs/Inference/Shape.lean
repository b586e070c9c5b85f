/-
What the rules conclude apart from weights and trees: the name under which a rule fires and the
forms of its consequences.

* `Firing.shape`: the name and the forms of a firing;
* `Firing.ReadsForm`, `Firing.ReadsForms`, `Firing.ReadsCores`: what of its antecedents the shape
  depends on, shown for every rule with one premise or two;
* `Firing.IsSymmetric`, `Firing.IsOneWay`: a rule that cannot say different things on the two orders
  of its antecedents, or fires on one of them only; one of these is shown for every rule with two
  premises.
-/
import Mathlib.Tactic
import DeductiveParsing.Proofs.Choice
import DeductiveParsing.Schema.Rule

namespace DeductiveParsing

variable {W : Type}

/-! ### Shapes -/

namespace Firing

/-- What a firing says apart from weights and trees. -/
def shape (f : Firing W) : String × List Form := (f.name, f.items.map Item.form)

/-- Two computations that begin alike have one shape if what they go on with has. -/
lemma map_shape_bind {α : Type} {o : Option α} {f g : α → Option (Firing W)}
    (h : ∀ a, (f a).map shape = (g a).map shape) :
    (o.bind f).map shape = (o.bind g).map shape := by
  cases o with
  | none => rfl
  | some a => exact h a

/-- The same for computations that test one condition. -/
lemma map_shape_ite {c : Prop} [Decidable c] {f g : Option (Firing W)}
    (h : f.map shape = g.map shape) :
    (if c then f else none).map shape = (if c then g else none).map shape := by
  split
  · exact h
  · rfl

/-- A rule with two premises that says the same on both orders of the antecedents whenever it fires
on both. -/
def IsSymmetric (fire : Item W → Item W → Option (Firing W)) : Prop :=
  ∀ x y f g, fire x y = some f → fire y x = some g → f.shape = g.shape

/-- A rule with two premises that fires on one order of any two antecedents at most. -/
def IsOneWay (fire : Item W → Item W → Option (Firing W)) : Prop :=
  ∀ x y f g, fire x y = some f → fire y x ≠ some g

lemma IsOneWay.isSymmetric {fire : Item W → Item W → Option (Firing W)} (h : IsOneWay fire) :
    IsSymmetric fire :=
  fun x y f g hf hg => absurd hg (h x y f g hf)

lemma map_shape_eitherOrder? (fire : Item W → Item W → Option (Firing W)) (x y : Item W) :
    (eitherOrder? fire x y).map shape = ((fire x y).map shape).or ((fire y x).map shape) := by
  cases h : fire x y <;> simp [eitherOrder?, h]

lemma eq_some_of_eitherOrder? {fire : Item W → Item W → Option (Firing W)} {x y : Item W}
    {f : Firing W} (h : eitherOrder? fire x y = some f) :
    fire x y = some f ∨ fire y x = some f := by
  rw [eitherOrder?] at h
  split at h
  · rename_i g hg
    exact Or.inl (Option.some.inj h ▸ hg)
  · exact Or.inr h

/-- A symmetric rule concludes the same from both orders of the antecedents. -/
lemma IsSymmetric.map_shape_swap {fire : Item W → Item W → Option (Firing W)}
    (h : IsSymmetric fire) (x y : Item W) :
    (eitherOrder? fire x y).map shape = (eitherOrder? fire y x).map shape := by
  rw [map_shape_eitherOrder?, map_shape_eitherOrder?]
  cases hf : fire x y with
  | none => simp
  | some f =>
      cases hg : fire y x with
      | none => simp
      | some g => simp [h x y f g hf hg]

end Firing

open Firing

namespace Item

/-- What of an item rules look at: the form and the weight, but not the trees. -/
def core (x : Item W) : Form × Option W := (x.form, x.weight)

lemma map_fst_core (xs : List (Item W)) : (xs.map core).map Prod.fst = xs.map form := by
  rw [List.map_map]; rfl

end Item

/-! ### One premise -/

/-- What `fire` concludes from one antecedent depends on the antecedent's form alone. -/
def Firing.ReadsForm (fire : Item W → Option (Firing W)) : Prop :=
  ∀ form w ts w' ts', (fire ⟨form, w, ts⟩).map shape = (fire ⟨form, w', ts'⟩).map shape

lemma TopDownRule.readsForm (rule : TopDownRule) : ReadsForm fun x : Item W => rule.fire [x]
  | _, _, _, _, _ => by
      refine map_shape_bind fun stack => map_shape_bind fun i => ?_
      cases stack with
      | nil => rfl
      | cons top rest => cases rule <;> exact map_shape_ite rfl

lemma ShiftReduceRule.readsForm (rule : ShiftReduceRule) :
    ReadsForm fun x : Item W => rule.fire [x]
  | _, _, _, _, _ => rfl

lemma EarleyRule.readsForm (rule : EarleyRule) : ReadsForm fun x : Item W => rule.fire [x]
  | _, _, _, _, _ => by
      cases rule with
      | scan tokens =>
          refine map_shape_bind fun d => map_shape_bind fun i => map_shape_bind fun j =>
            map_shape_bind fun advanced => ?_
          split
          · exact map_shape_ite rfl
          · rfl
      | predict p => rfl
      | complete => rfl

lemma LeftCornerRule.readsForm (rule : LeftCornerRule) : ReadsForm fun x : Item W => rule.fire [x]
  | _, _, _, _, _ => rfl

lemma LrRule.readsForm (rule : LrRule) : ReadsForm fun x : Item W => rule.fire [x]
  | _, _, _, _, _ => rfl

lemma UngerRule.readsForm_predict (p : Production) :
    ReadsForm fun x : Item W => (predict p).fire [x]
  | _, _, _, _, _ => rfl

lemma UngerRule.readsForm_scan (tokens : List String) :
    ReadsForm fun x : Item W => (scan tokens).fire [x]
  | _, _, _, _, _ => rfl

lemma CykRule.readsForm_unary (p : Production) : ReadsForm fun x : Item W => (unary p).fire [x]
  | _, _, _, _, _ =>
      map_shape_bind fun _ => map_shape_bind fun _ => map_shape_bind fun _ => map_shape_ite rfl

lemma CykRule.readsForm_placeEmpty (p : Production) : ReadsForm (placeEmpty p (W := W))
  | _, _, _, _, _ => rfl

lemma TreeCykRule.readsForm (rule : TreeCykRule) : ReadsForm fun x : Item W => rule.fire [x]
  | _, _, _, _, _ => by cases rule <;> rfl

lemma TreeEarleyRule.readsForm (rule : TreeEarleyRule) : ReadsForm fun x : Item W => rule.fire [x]
  | _, _, _, _, _ => by
      -- the first seven rules hand trees on, the others do not look at them
      cases rule with
      | scanToken | scanEmpty | predictNoAdjunction =>
          exact map_shape_bind fun _ => map_shape_bind fun _ => map_shape_ite rfl
      | moveDown => exact map_shape_bind fun _ => map_shape_ite rfl
      | moveRight => exact map_shape_bind fun _ => map_shape_bind fun _ => map_shape_ite rfl
      | moveUp =>
          exact map_shape_bind fun _ => map_shape_bind fun _ => map_shape_bind fun _ =>
            map_shape_ite rfl
      | substitute =>
          exact map_shape_bind fun _ => map_shape_bind fun _ => map_shape_bind fun _ =>
            map_shape_bind fun _ => map_shape_ite rfl
      | _ => rfl

/-! ### Two premises -/

/-- What `fire` concludes from two antecedents depends on their forms alone. -/
def Firing.ReadsForms (fire : Item W → Item W → Option (Firing W)) : Prop :=
  ∀ form₁ form₂ w₁ ts₁ w₂ ts₂ w₁' ts₁' w₂' ts₂',
    (fire ⟨form₁, w₁, ts₁⟩ ⟨form₂, w₂, ts₂⟩).map shape =
      (fire ⟨form₁, w₁', ts₁'⟩ ⟨form₂, w₂', ts₂'⟩).map shape

lemma EarleyRule.readsForms_completeWith : ReadsForms (completeWith (W := W))
  | _, _, _, _, _, _, _, _, _, _ =>
      map_shape_bind fun _ => map_shape_bind fun _ => map_shape_bind fun _ =>
        map_shape_bind fun _ => map_shape_bind fun _ => map_shape_bind fun _ =>
          map_shape_ite (map_shape_bind fun _ => rfl)

lemma CykRule.readsForms_joinTwo (p : Production) : ReadsForms (joinTwo p (W := W))
  | _, _, _, _, _, _, _, _, _, _ =>
      map_shape_bind fun _ => map_shape_bind fun _ => map_shape_bind fun _ =>
        map_shape_bind fun _ => map_shape_bind fun _ => map_shape_bind fun _ => map_shape_ite rfl

lemma TreeCykRule.readsForms_joinTwo (g : TreeAdjoining.Grammar) :
    ReadsForms (joinTwo g (W := W))
  | _, _, _, _, _, _, _, _, _, _ => rfl

lemma TreeCykRule.readsForms_wrap (g : TreeAdjoining.Grammar) : ReadsForms (wrap g (W := W))
  | _, _, _, _, _, _, _, _, _, _ => rfl

lemma TreeEarleyRule.readsForms_fillFoot (g : TreeAdjoining.Grammar) :
    ReadsForms (fillFoot g (W := W))
  | _, _, _, _, _, _, _, _, _, _ =>
      map_shape_bind fun _ => map_shape_bind fun _ => map_shape_ite rfl

lemma TreeEarleyRule.readsForms_closeNode (g : TreeAdjoining.Grammar) :
    ReadsForms (closeNode g (W := W))
  | _, _, _, _, _, _, _, _, _, _ =>
      map_shape_bind fun _ => map_shape_bind fun _ => map_shape_bind fun _ =>
        map_shape_bind fun _ => map_shape_ite rfl

lemma TreeEarleyRule.readsForms_wrap (g : TreeAdjoining.Grammar) : ReadsForms (wrap g (W := W))
  | _, _, _, _, _, _, _, _, _, _ =>
      map_shape_bind fun _ => map_shape_bind fun _ => map_shape_bind fun _ =>
        map_shape_bind fun _ => map_shape_ite rfl

/-- With weights, what is concluded from two antecedents depends on their weights too. -/
def Firing.ReadsCores (fire : Item W → Item W → Option (Firing W)) : Prop :=
  ∀ form₁ form₂ w₁ w₂ ts₁ ts₂ ts₁' ts₂',
    (fire ⟨form₁, w₁, ts₁⟩ ⟨form₂, w₂, ts₂⟩).map shape =
      (fire ⟨form₁, w₁, ts₁'⟩ ⟨form₂, w₂, ts₂'⟩).map shape

section Weighted

variable [Weight W]

lemma WeightedRule.readsCores_joinProduct (p : Weighted.Production W) :
    ReadsCores (joinProduct p)
  | _, _, _, _, _, _, _, _ =>
      map_shape_bind fun _ => map_shape_bind fun _ => map_shape_bind fun _ =>
        map_shape_bind fun _ => map_shape_bind fun _ => map_shape_bind fun _ =>
          map_shape_bind fun _ => map_shape_bind fun _ => map_shape_ite rfl

lemma WeightedRule.readsCores_joinGuided (p : Weighted.Production W)
    (e : Weighted.Estimates W) : ReadsCores (joinGuided p e)
  | _, _, _, _, _, _, _, _ =>
      map_shape_bind fun _ => map_shape_bind fun _ => map_shape_bind fun _ =>
        map_shape_bind fun _ => map_shape_bind fun _ => map_shape_bind fun _ =>
          map_shape_bind fun _ => map_shape_bind fun _ => map_shape_ite
            (map_shape_bind fun _ => map_shape_bind fun _ => map_shape_bind fun _ => rfl)

end Weighted

/-! ### Orders of two antecedents -/

/-- The first antecedent of a completion has a symbol behind the dot and the second has none. -/
lemma EarleyRule.isOneWay_completeWith : IsOneWay (completeWith (W := W)) := by
  intro x y f g hf hg
  simp only [completeWith, Option.bind_eq_bind, Option.bind_eq_some_iff,
    Option.ite_none_right_eq_some] at hf hg
  obtain ⟨a, hx, _, -, _, -, _, -, _, -, _, -, ⟨-, -, hnext⟩, -⟩ := hf
  obtain ⟨_, -, _, -, _, -, b, hx', _, -, _, -, ⟨-, hdone, -⟩, -⟩ := hg
  obtain rfl : a = b := Option.some.inj (hx.symm.trans hx')
  obtain ⟨hlt, -⟩ := List.getElem?_eq_some_iff.1 hnext
  simp [Dotted.isActive, hlt] at hdone

/-- If each of two spans begins where the other ends, both are empty and begin at one place. -/
lemma CykRule.isSymmetric_joinTwo (p : Production) : IsSymmetric (joinTwo p (W := W)) := by
  intro x y f g hf hg
  simp only [joinTwo, Option.bind_eq_bind, Option.bind_eq_some_iff,
    Option.ite_none_right_eq_some] at hf hg
  obtain ⟨b, -, i, hi, l, hl, c, -, j, hj, m, hm, ⟨hij, -⟩, hf⟩ := hf
  obtain ⟨c', -, j', hj', m', hm', b', -, i', hi', l', hl', ⟨hji, -⟩, hg⟩ := hg
  obtain rfl : i = i' := Option.some.inj (hi.symm.trans hi')
  obtain rfl : j = j' := Option.some.inj (hj.symm.trans hj')
  obtain rfl : l = l' := Option.some.inj (hl.symm.trans hl')
  obtain rfl : m = m' := Option.some.inj (hm.symm.trans hm')
  obtain ⟨rfl, rfl, rfl⟩ : l = 0 ∧ m = 0 ∧ i = j := by omega
  rw [← Option.some.inj hf, ← Option.some.inj hg]
  rfl

/-- The first child stands at place one and the second at place two. -/
lemma TreeCykRule.isOneWay_joinTwo (g : TreeAdjoining.Grammar) :
    IsOneWay (joinTwo g (W := W)) := by
  intro x y f h hf hh
  simp only [joinTwo, Option.bind_eq_bind, Option.bind_eq_some_iff,
    Option.ite_none_right_eq_some] at hf hh
  obtain ⟨l, hl, r, hr, -, -, -, -, ⟨-, -, -, hplace, hsibling, -⟩, -⟩ := hf
  obtain ⟨r', hr', -, -, -, -, -, -, ⟨-, -, -, hplace', -, -⟩, -⟩ := hh
  obtain rfl : r = r' := Option.some.inj (hr.symm.trans hr')
  simp only [Address.rightSibling?, hplace, Option.map_some, Option.some.injEq] at hsibling
  rw [← hsibling] at hplace'
  simp [Address.place?] at hplace'

/-- At the node of the auxiliary tree adjunction is settled, at the other node it is not. -/
lemma TreeCykRule.isOneWay_wrap (g : TreeAdjoining.Grammar) : IsOneWay (wrap g (W := W)) := by
  intro x y f h hf hh
  simp only [wrap, Option.bind_eq_bind, Option.bind_eq_some_iff,
    Option.ite_none_right_eq_some] at hf hh
  obtain ⟨b, hb, -, -, -, -, -, -, ⟨hsettled, -⟩, -⟩ := hf
  obtain ⟨-, -, b', hb', -, -, -, -, ⟨-, hopen, -⟩, -⟩ := hh
  obtain rfl : b = b' := Option.some.inj (hb.symm.trans hb')
  simp [hsettled] at hopen

/-- A walk is at one station only. -/
lemma NodeVisit.eq_of_isAt {v : NodeVisit} {c c' : Corner} (h : v.isAt c) (h' : v.isAt c') :
    c = c' := by
  simp only [isAt, Bool.and_eq_true, beq_iff_eq] at h h'
  have htext : c.text = c'.text := h.1.symm.trans h'.1
  cases c <;> cases c' <;> first | rfl | simp [Corner.text] at htext

lemma TreeEarleyRule.isOneWay_fillFoot (g : TreeAdjoining.Grammar) :
    IsOneWay (fillFoot g (W := W)) := by
  intro x y f h hf hh
  simp only [fillFoot, Option.bind_eq_bind, Option.bind_eq_some_iff,
    Option.ite_none_right_eq_some] at hf hh
  obtain ⟨r, hr, -, -, ⟨hbelow, -⟩, -⟩ := hf
  obtain ⟨-, -, r', hr', ⟨-, hfoot, -⟩, -⟩ := hh
  obtain rfl : r = r' := Option.some.inj (hr.symm.trans hr')
  cases NodeVisit.eq_of_isAt hbelow hfoot

lemma TreeEarleyRule.isOneWay_closeNode (g : TreeAdjoining.Grammar) :
    IsOneWay (closeNode g (W := W)) := by
  intro x y f h hf hh
  simp only [closeNode, Option.bind_eq_bind, Option.bind_eq_some_iff,
    Option.ite_none_right_eq_some] at hf hh
  obtain ⟨a, ha, -, -, -, -, -, -, ⟨hleft, -⟩, -⟩ := hf
  obtain ⟨-, -, a', ha', -, -, -, -, ⟨-, hright, -⟩, -⟩ := hh
  obtain rfl : a = a' := Option.some.inj (ha.symm.trans ha')
  simp only [NodeVisit.isAt, Bool.and_eq_true, beq_iff_eq] at hleft
  simp [hleft.1, Corner.text] at hright

lemma TreeEarleyRule.isOneWay_wrap (g : TreeAdjoining.Grammar) :
    IsOneWay (wrap g (W := W)) := by
  intro x y f h hf hh
  simp only [wrap, Option.bind_eq_bind, Option.bind_eq_some_iff,
    Option.ite_none_right_eq_some] at hf hh
  obtain ⟨b, hb, -, -, -, -, -, -, ⟨habove, -⟩, -⟩ := hf
  obtain ⟨-, -, b', hb', -, -, -, -, ⟨-, -, hbelow, -⟩, -⟩ := hh
  obtain rfl : b = b' := Option.some.inj (hb.symm.trans hb')
  cases NodeVisit.eq_of_isAt habove hbelow

section Weighted

variable [Weight W]

lemma WeightedRule.shape_of_joinProduct {p : Weighted.Production W} {x y : Item W} {f : Firing W}
    (h : joinProduct p x y = some f) :
    ∃ i l m, x.index? 1 = some i ∧ x.index? 2 = some l ∧ y.index? 1 = some (i + l) ∧
      y.index? 2 = some m ∧
      f.shape = (name (product p), [[.symbol p.production.lhs, .index i, .index (l + m)]]) := by
  simp only [joinProduct, Option.bind_eq_bind, Option.bind_eq_some_iff,
    Option.ite_none_right_eq_some] at h
  obtain ⟨_, -, i, hi, l, hl, _, -, j, hj, m, hm, _, -, _, -, ⟨rfl, -⟩, h⟩ := h
  exact ⟨i, l, m, hi, hl, hj, hm, by rw [← Option.some.inj h]; rfl⟩

lemma WeightedRule.isSymmetric_joinProduct (p : Weighted.Production W) :
    IsSymmetric (joinProduct p) := by
  intro x y f g hf hg
  obtain ⟨i, l, m, hi, hl, hj, hm, hshape⟩ := shape_of_joinProduct hf
  obtain ⟨i', l', m', hi', hl', hj', hm', hshape'⟩ := shape_of_joinProduct hg
  obtain rfl : l = m' := Option.some.inj (hl.symm.trans hm')
  obtain rfl : m = l' := Option.some.inj (hm.symm.trans hl')
  have hij : i + l = i' := Option.some.inj (hj.symm.trans hi')
  have hji : i' + m = i := Option.some.inj (hj'.symm.trans hi)
  obtain ⟨rfl, rfl, rfl⟩ : l = 0 ∧ m = 0 ∧ i = i' := by omega
  rw [hshape, hshape']

lemma WeightedRule.shape_of_joinGuided {p : Weighted.Production W} {e : Weighted.Estimates W}
    {x y : Item W} {f : Firing W} (h : joinGuided p e x y = some f) :
    ∃ i j k, x.index? 1 = some i ∧ x.index? 2 = some j ∧ y.index? 1 = some j ∧
      y.index? 2 = some k ∧ i ≤ j ∧ j ≤ k ∧
      f.shape = (name (guided p e), [[.symbol p.production.lhs, .index i, .index k]]) := by
  simp only [joinGuided, Option.bind_eq_bind, Option.bind_eq_some_iff,
    Option.ite_none_right_eq_some] at h
  obtain ⟨_, -, i, hi, j, hj, _, -, j', hj', k, hk, _, -, _, -, ⟨rfl, hij, hjk, -⟩,
    _, -, _, -, _, -, h⟩ := h
  exact ⟨i, j, k, hi, hj, hj', hk, hij, hjk, by rw [← Option.some.inj h]; rfl⟩

lemma WeightedRule.isSymmetric_joinGuided (p : Weighted.Production W) (e : Weighted.Estimates W) :
    IsSymmetric (joinGuided p e) := by
  intro x y f g hf hg
  obtain ⟨i, j, k, hi, hj, hj', hk, hij, hjk, hshape⟩ := shape_of_joinGuided hf
  obtain ⟨i', j', k', hi', hk', hi'', hj'', -, -, hshape'⟩ := shape_of_joinGuided hg
  obtain rfl : j = i' := Option.some.inj (hj'.symm.trans hi')
  obtain rfl : i = j' := Option.some.inj (hi.symm.trans hi'')
  obtain rfl : k = i := Option.some.inj (hk.symm.trans hk')
  obtain rfl : j = k := by omega
  obtain rfl : j = k' := Option.some.inj (hj.symm.trans hj'')
  rw [hshape, hshape']

end Weighted

end DeductiveParsing
