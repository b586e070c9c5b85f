/-
Antecedents with different forms fit a rule in one order at most. So what is concluded from them,
trees included, does not depend on the order in which they are given.

* `Firing.IsDirected`: a rule with two premises that fires on both orders only of antecedents with
  one form;
* `CykRule.eq_of_joinAll`: spans with different forms are joined in one order only;
* `Rule.ReadsSpans`: the rules of parsing by spans, and `Rule.isSpan_of_fire`: they conclude spans;
* `Rule.fire?_perm`: a rule concludes the same from all orders of antecedents with different forms,
  or nothing that carries trees.
-/
import DeductiveParsing.Proofs.Cyk.Rules

namespace DeductiveParsing

open Cyk (IsSpan)

variable {W : Type}

/-! ### Two premises -/

namespace Firing

variable {Fits : Item W → Prop} {fire : Item W → Item W → Option (Firing W)} {x y : Item W}

/-- A rule with two premises that fires on both orders of two antecedents only if these have one
form. -/
def IsDirected (Fits : Item W → Prop) (fire : Item W → Item W → Option (Firing W)) : Prop :=
  ∀ x y f g, Fits x → Fits y → fire x y = some f → fire y x = some g → x.form = y.form

lemma IsOneWay.isDirected (h : IsOneWay fire) : IsDirected Fits fire :=
  fun x y f g _ _ hf hg => absurd hg (h x y f g hf)

/-- A directed rule concludes the same from both orders of antecedents with different forms. -/
lemma IsDirected.eitherOrder?_swap (h : IsDirected Fits fire) (hx : Fits x) (hy : Fits y)
    (hne : x.form ≠ y.form) : eitherOrder? fire x y = eitherOrder? fire y x := by
  cases hf : fire x y with
  | none =>
      cases hg : fire y x with
      | none => simp [eitherOrder?, hf, hg]
      | some g => simp [eitherOrder?, hf, hg]
  | some f =>
      cases hg : fire y x with
      | none => simp [eitherOrder?, hf, hg]
      | some g => exact absurd (h x y f g hx hy hf hg) hne

end Firing

open Firing

namespace CykRule

variable {p : Production} {x y : Item W} {xs ys : List (Item W)} {symbols : List Symbol}
  {place stop stop' : ℕ}

/-- Two spans for the symbols of a right-hand side fit in both orders only if both are empty. -/
lemma isDirected_joinTwo (p : Production) : IsDirected IsSpan (joinTwo p (W := W)) := by
  rintro x y f g ⟨b, i, l, hx⟩ ⟨c, j, m, hy⟩ hf hg
  obtain ⟨hb, hi, hl⟩ := Cyk.fields_of_form hx
  obtain ⟨hc, hj, hm⟩ := Cyk.fields_of_form hy
  simp only [joinTwo, hb, hi, hl, hc, hj, hm, Option.bind_eq_bind, Option.bind_some,
    Option.ite_none_right_eq_some] at hf hg
  obtain ⟨⟨hij, hnames⟩, -⟩ := hf
  obtain ⟨⟨hji, hnames'⟩, -⟩ := hg
  obtain ⟨rfl, -⟩ : b = c ∧ c = b := by simpa using hnames.symm.trans hnames'
  obtain ⟨rfl, rfl, rfl⟩ : l = 0 ∧ m = 0 ∧ i = j := by omega
  rw [hx, hy]

/-! ### Any number of premises -/

/-- A span in a row begins at the first place or behind it. -/
lemma le_of_chained {zs : List (Item W)} (h : Cyk.Chained place zs symbols stop) {z : Item W}
    (hz : z ∈ zs) {name : String} {i l : ℕ} (hform : z.form = Cyk.form name i l) : place ≤ i := by
  obtain ⟨j, hj, hle⟩ := (chainEnd?_eq_some h.length_eq h.chainEnd?_eq).2 z hz
  obtain rfl : j = i := Option.some.inj (hj.symm.trans (Cyk.fields_of_form hform).2.1)
  exact hle

/-- If a span stands first in one of two orders, a span with another form cannot stand first in the
other one: it would begin where the first one begins, and both would be empty. -/
lemma form_eq_of_chained {s : Symbol} (h : Cyk.Chained place (x :: xs) (s :: symbols) stop)
    (h' : Cyk.Chained place (y :: ys) (s :: symbols) stop') (hperm : (y :: ys).Perm (x :: xs)) :
    x.form = y.form := by
  cases h with
  | @cons _ l _ _ _ _ _ hx h =>
      cases h' with
      | @cons _ m _ _ _ _ _ hy h' =>
          rcases List.mem_cons.1 (hperm.symm.subset List.mem_cons_self) with rfl | hxs
          · rfl
          rcases List.mem_cons.1 (hperm.subset List.mem_cons_self) with rfl | hys
          · rfl
          have hm := le_of_chained h' hxs hx
          have hl := le_of_chained h hys hy
          obtain ⟨rfl, rfl⟩ : l = 0 ∧ m = 0 := by omega
          rw [hx, hy]

/-- Spans with different forms follow one another in one order only. -/
lemma eq_of_chained (h : Cyk.Chained place xs symbols stop)
    (h' : Cyk.Chained place ys symbols stop') (hperm : ys.Perm xs)
    (hnodup : (xs.map Item.form).Nodup) : ys = xs := by
  induction h generalizing ys stop' with
  | nil => exact List.perm_nil.1 hperm
  | @cons place l stop x s xs symbols hx h ih =>
      obtain ⟨y, ys, rfl⟩ : ∃ y ys', ys = y :: ys' :=
        List.exists_cons_of_length_eq_add_one hperm.length_eq
      have hform := form_eq_of_chained (.cons hx h) h' hperm
      obtain rfl : x = y := List.inj_on_of_nodup_map hnodup List.mem_cons_self
        (hperm.subset List.mem_cons_self) hform
      cases h' with
      | @cons _ l' _ _ _ _ _ hx' h' =>
          obtain ⟨-, -, rfl⟩ := Cyk.form_injective (hx.symm.trans hx')
          rw [ih h' hperm.cons_inv (List.Nodup.of_cons hnodup)]

/-- The first place is the same in all orders in which spans follow one another. -/
lemma start_eq_of_chained {start start' : ℕ} (hne : symbols ≠ [])
    (h : Cyk.Chained start xs symbols stop) (h' : Cyk.Chained start' ys symbols stop')
    (hperm : ys.Perm xs) : start = start' := by
  have hle : ∀ {a b zs vs c d}, Cyk.Chained (W := W) a zs symbols c →
      Cyk.Chained b vs symbols d → vs.Perm zs → b ≤ a := by
    intro a b zs vs c d hz hv hperm
    cases hz with
    | nil => exact absurd rfl hne
    | cons hx _ => exact le_of_chained hv (hperm.symm.subset List.mem_cons_self) hx
  exact le_antisymm (hle h' h hperm.symm) (hle h h' hperm)

/-- Spans with different forms are joined in one order only. -/
lemma eq_of_joinAll (hne : p.rhs ≠ []) (hspans : ∀ x ∈ xs, IsSpan x)
    (hlen : xs.length = p.rhs.length) (hx : joinAll p xs = some x) (hy : joinAll p ys = some y)
    (hperm : ys.Perm xs) (hnodup : (xs.map Item.form).Nodup) : ys = xs := by
  obtain ⟨start, stop, h, -⟩ := Cyk.joinAll_eq_some hspans hlen hx
  obtain ⟨start', stop', h', -⟩ := Cyk.joinAll_eq_some
    (fun x hx => hspans x (hperm.subset hx)) (hperm.length_eq.trans hlen) hy
  obtain rfl := start_eq_of_chained hne h h' hperm
  exact eq_of_chained h h' hperm hnodup

lemma ofItems_distinctForms {name : String} {zs : List (Item W)} (hx : x ∈ zs)
    (hall : ∀ z ∈ zs, z = x) : ofItems name (Item.distinctForms zs) = some ⟨name, [x]⟩ := by
  cases zs with
  | nil => cases hx
  | cons z zs =>
      obtain rfl := hall z List.mem_cons_self
      have hrest : ∀ y ∈ Choice.distinctBy Item.form zs, y.form = z.form := fun y hy =>
        congrArg _ (hall y (List.mem_cons_of_mem _ (Choice.mem_of_mem_distinctBy hy)))
      simpa [Item.distinctForms, Choice.distinctBy, ofItems] using hrest

/-- Spans with different forms are joined to one item, whatever the order in which they are
given. -/
lemma fire_general_eq (hne : p.rhs ≠ []) (hspans : ∀ x ∈ xs, IsSpan x)
    (hlen : xs.length = p.rhs.length) (hx : joinAll p xs = some x) (hperm : ys.Perm xs)
    (hnodup : (xs.map Item.form).Nodup) :
    (general p).fire ys = some ⟨name (general p), [x]⟩ := by
  have hempty : p.isEmpty = false := by simpa [Production.isEmpty] using hne
  simp only [fire, hempty, Bool.false_eq_true, ↓reduceIte]
  have hwalk : xs ∈ spanOrders p ys :=
    Choice.mem_walks_length.2 ⟨hperm.symm, isSome_walk_of_joinAll hlen hx⟩
  refine ofItems_distinctForms (List.mem_filterMap.2 ⟨xs, hwalk, hx⟩) fun z hz => ?_
  obtain ⟨order, horder, hz⟩ := List.mem_filterMap.1 hz
  obtain rfl := eq_of_joinAll hne hspans hlen hx hz
    ((Choice.mem_walks_length.1 horder).1.trans hperm) hnodup
  exact Option.some.inj (hz.symm.trans hx)

/-- The rules for productions of any length conclude the same from all orders of spans with
different forms. -/
lemma fire_general_perm (hspans : ∀ x ∈ xs, IsSpan x) (hlen : xs.length = (general p).arity)
    (hperm : ys.Perm xs) (hnodup : (xs.map Item.form).Nodup) {f : Firing W}
    (h : (general p).fire xs = some f) : (general p).fire ys = some f := by
  by_cases hne : p.rhs = []
  · rw [arity, hne] at hlen
    obtain ⟨x, rfl⟩ := List.length_eq_one_iff.1 hlen
    obtain rfl := List.perm_singleton.1 hperm
    exact h
  · rw [arity, Nat.max_eq_left (List.length_pos_iff.2 hne)] at hlen
    obtain ⟨y, hy⟩ : ∃ y, y ∈ f.items := by
      have hempty : p.isEmpty = false := by simpa [Production.isEmpty] using hne
      simp only [fire, hempty, Bool.false_eq_true, ↓reduceIte, ofItems,
        Option.ite_none_left_eq_some] at h
      rw [← Option.some.inj h.2]
      exact List.exists_mem_of_ne_nil _ (by simpa using h.1)
    obtain ⟨order, horder, hjoin⟩ := Cyk.exists_of_fire_general hne h y hy
    have hfire : ∀ zs : List (Item W), zs.Perm order →
        (general p).fire zs = some ⟨name (general p), [y]⟩ := fun zs hzs =>
      fire_general_eq hne (fun x hx => hspans x (horder.subset hx))
        (horder.length_eq.trans hlen) hjoin hzs ((horder.map _).nodup_iff.2 hnodup)
    rw [hfire ys (hperm.trans horder.symm), ← hfire xs horder.symm, h]

end CykRule

/-! ### Parsing with weights -/

namespace WeightedRule

variable [Weight W]

lemma isDirected_joinProduct (p : Weighted.Production W) : IsDirected IsSpan (joinProduct p) := by
  rintro x y f g ⟨b, i, l, hx⟩ ⟨c, j, m, hy⟩ hf hg
  obtain ⟨hb, hi, hl⟩ := Cyk.fields_of_form hx
  obtain ⟨hc, hj, hm⟩ := Cyk.fields_of_form hy
  simp only [joinProduct, hb, hi, hl, hc, hj, hm, Option.bind_eq_bind, Option.bind_some,
    Option.bind_eq_some_iff, Option.ite_none_right_eq_some] at hf hg
  obtain ⟨-, -, -, -, ⟨hij, hnames⟩, -⟩ := hf
  obtain ⟨-, -, -, -, ⟨hji, hnames'⟩, -⟩ := hg
  obtain ⟨rfl, -⟩ : b = c ∧ c = b := by simpa using hnames.symm.trans hnames'
  obtain ⟨rfl, rfl, rfl⟩ : l = 0 ∧ m = 0 ∧ i = j := by omega
  rw [hx, hy]

lemma isDirected_joinGuided (p : Weighted.Production W) (e : Weighted.Estimates W) :
    IsDirected IsSpan (joinGuided p e) := by
  rintro x y f g ⟨b, i, l, hx⟩ ⟨c, j, m, hy⟩ hf hg
  obtain ⟨hb, hi, hl⟩ := Cyk.fields_of_form hx
  obtain ⟨hc, hj, hm⟩ := Cyk.fields_of_form hy
  simp only [joinGuided, hb, hi, hl, hc, hj, hm, Option.bind_eq_bind, Option.bind_some,
    Option.bind_eq_some_iff, Option.ite_none_right_eq_some] at hf hg
  obtain ⟨-, -, -, -, ⟨rfl, hij, hjk, hnames⟩, -⟩ := hf
  obtain ⟨-, -, -, -, ⟨rfl, -, -, hnames'⟩, -⟩ := hg
  obtain ⟨rfl, -⟩ : b = c ∧ c = b := by simpa using hnames.symm.trans hnames'
  obtain rfl : m = l := by omega
  rw [hx, hy]

end WeightedRule

/-! ### All rules -/

namespace Rule

variable [Weight W] {rule : Rule W} {xs ys : List (Item W)} {f : Firing W}

omit [Weight W] in
/-- Whether a rule is one of parsing by spans. -/
def ReadsSpans : Rule W → Prop
  | cyk _ => True
  | weighted _ => True
  | _ => False

/-- The rules of parsing by spans conclude spans. -/
lemma isSpan_of_fire (hrule : rule.ReadsSpans) (h : rule.fire? xs = some f) :
    ∀ y ∈ f.items, IsSpan y := by
  obtain ⟨hlen, h⟩ := fire?_eq_some.1 h
  have hone : ∀ {name : String} {a : String} {i l : ℕ} {w : Option W} {ts : List Tree},
      (⟨name, [⟨Cyk.form a i l, w, ts⟩]⟩ : Firing W) = f → ∀ y ∈ f.items, IsSpan y := by
    rintro name a i l w ts rfl y hy
    exact List.mem_singleton.1 hy ▸ ⟨a, i, l, rfl⟩
  cases rule with
  | cyk r =>
      cases r with
      | binary p =>
          obtain ⟨x, y, rfl⟩ := List.length_eq_two.1 hlen
          have htwo : ∀ {x y : Item W}, CykRule.joinTwo p x y = some f →
              ∀ y ∈ f.items, IsSpan y := by
            intro x y h
            simp only [CykRule.joinTwo, Option.bind_eq_bind, Option.bind_eq_some_iff,
              Option.ite_none_right_eq_some] at h
            obtain ⟨_, -, _, -, _, -, _, -, _, -, _, -, -, h⟩ := h
            exact hone (Option.some.inj h)
          exact (eq_some_of_eitherOrder? h).elim htwo htwo
      | unary p =>
          obtain ⟨x, rfl⟩ := List.length_eq_one_iff.1 hlen
          simp only [fire, CykRule.fire, Option.bind_eq_bind, Option.bind_eq_some_iff,
            Option.ite_none_right_eq_some] at h
          obtain ⟨_, -, _, -, _, -, -, h⟩ := h
          exact hone (Option.some.inj h)
      | general p =>
          by_cases hne : p.rhs = []
          · have harity : xs.length = 1 := by simpa [arity, CykRule.arity, hne] using hlen
            obtain ⟨x, rfl⟩ := List.length_eq_one_iff.1 harity
            have hempty : p.isEmpty = true := by simp [Production.isEmpty, hne]
            simp only [fire, CykRule.fire, hempty, ↓reduceIte, CykRule.placeEmpty,
              Option.bind_eq_bind, Option.bind_eq_some_iff, Option.ite_none_right_eq_some] at h
            obtain ⟨_, -, _, -, _, -, -, h⟩ := h
            exact hone (Option.some.inj h)
          · intro y hy
            obtain ⟨order, -, hjoin⟩ := Cyk.exists_of_fire_general hne h y hy
            simp only [CykRule.joinAll, Option.bind_eq_bind, Option.bind_eq_some_iff] at hjoin
            obtain ⟨-, -, start, -, stop, -, hjoin⟩ := hjoin
            exact ⟨p.lhs, start, stop - start, (congrArg _ (Option.some.inj hjoin)).symm⟩
  | weighted r =>
      obtain ⟨x, y, rfl⟩ := List.length_eq_two.1 hlen
      cases r with
      | product p =>
          have htwo : ∀ {x y : Item W}, WeightedRule.joinProduct p x y = some f →
              ∀ y ∈ f.items, IsSpan y := by
            intro x y h
            simp only [WeightedRule.joinProduct, Option.bind_eq_bind, Option.bind_eq_some_iff,
              Option.ite_none_right_eq_some] at h
            obtain ⟨_, -, _, -, _, -, _, -, _, -, _, -, _, -, _, -, -, h⟩ := h
            exact hone (Option.some.inj h)
          exact (eq_some_of_eitherOrder? h).elim htwo htwo
      | guided p e =>
          have htwo : ∀ {x y : Item W}, WeightedRule.joinGuided p e x y = some f →
              ∀ y ∈ f.items, IsSpan y := by
            intro x y h
            simp only [WeightedRule.joinGuided, Option.bind_eq_bind, Option.bind_eq_some_iff,
              Option.ite_none_right_eq_some] at h
            obtain ⟨_, -, _, -, _, -, _, -, _, -, _, -, _, -, _, -, -, _, -, _, -, _, -, h⟩ := h
            exact hone (Option.some.inj h)
          exact (eq_some_of_eitherOrder? h).elim htwo htwo
  | _ => exact hrule.elim

omit [Weight W] in
/-- What a directed rule concludes from two antecedents with different forms, it concludes from
them in any order. -/
lemma fire_perm_of_isDirected {Fits : Item W → Prop} {fire : Item W → Item W → Option (Firing W)}
    {fireAll : List (Item W) → Option (Firing W)} (hdirected : IsDirected Fits fire)
    (hall : ∀ x y, fireAll [x, y] = eitherOrder? fire x y) (hlen : xs.length = 2)
    (hfits : ∀ x ∈ xs, Fits x) (hperm : ys.Perm xs) (hnodup : (xs.map Item.form).Nodup)
    (h : fireAll xs = some f) : fireAll ys = some f := by
  obtain ⟨x, y, rfl⟩ := List.length_eq_two.1 hlen
  obtain ⟨hx, hy⟩ : Fits x ∧ Fits y := by simpa using hfits
  have hne : x.form ≠ y.form := by simpa using hnodup
  obtain ⟨x', y', rfl⟩ := List.length_eq_two.1 (hperm.length_eq.trans hlen)
  rcases eq_or_eq_of_perm_pair hperm with ⟨rfl, rfl⟩ | ⟨rfl, rfl⟩
  · exact h
  · rw [hall] at h ⊢
    rw [← hdirected.eitherOrder?_swap hx hy hne, h]

/-- A rule concludes the same from all orders of antecedents with different forms, trees included,
or what it concludes carries no trees. The rules of parsing by spans are meant for spans. -/
theorem fire?_perm (hspans : rule.ReadsSpans → ∀ x ∈ xs, IsSpan x) (hperm : ys.Perm xs)
    (hnodup : (xs.map Item.form).Nodup) (h : rule.fire? xs = some f) :
    rule.fire? ys = some f ∨ ∀ y ∈ f.items, y.trees = [] := by
  obtain ⟨hlen, h⟩ := fire?_eq_some.1 h
  have hlen' : ys.length = rule.arity := hperm.length_eq.trans hlen
  have hone : xs.length = 1 → rule.fire? ys = some f := by
    intro hlen
    obtain ⟨x, rfl⟩ := List.length_eq_one_iff.1 hlen
    obtain rfl := List.perm_singleton.1 hperm
    exact fire?_eq_some.2 ⟨hlen', h⟩
  have honeWay : ∀ {fire : Item W → Item W → Option (Firing W)}, IsOneWay fire →
      (∀ x y, rule.fire [x, y] = eitherOrder? fire x y) → xs.length = 2 →
        rule.fire? ys = some f := fun {fire} hfire hall hlen =>
    have hdirected : Firing.IsDirected (fun _ : Item W => True) fire := hfire.isDirected
    fire?_eq_some.2 ⟨hlen', fire_perm_of_isDirected hdirected hall hlen (fun _ _ => trivial) hperm
      hnodup h⟩
  have hspan : ∀ {fire : Item W → Item W → Option (Firing W)}, IsDirected IsSpan fire →
      (∀ x y, rule.fire [x, y] = eitherOrder? fire x y) → rule.ReadsSpans → xs.length = 2 →
        rule.fire? ys = some f := fun hfire hall hrule hlen =>
    fire?_eq_some.2 ⟨hlen', fire_perm_of_isDirected hfire hall hlen (hspans hrule) hperm hnodup h⟩
  cases rule with
  | topDown r => exact Or.inl (hone hlen)
  | shiftReduce r => exact Or.inl (hone hlen)
  | leftCorner r => exact Or.inl (hone hlen)
  | lr r => exact Or.inl (hone hlen)
  | earley r =>
      cases r with
      | complete =>
          exact Or.inl (honeWay EarleyRule.isOneWay_completeWith (fun _ _ => rfl) hlen)
      | _ => exact Or.inl (hone hlen)
  | cyk r =>
      cases r with
      | binary p =>
          exact Or.inl (hspan (CykRule.isDirected_joinTwo p) (fun _ _ => rfl) trivial hlen)
      | unary p => exact Or.inl (hone hlen)
      | general p =>
          exact Or.inl (fire?_eq_some.2 ⟨hlen',
            CykRule.fire_general_perm (hspans trivial) hlen hperm hnodup h⟩)
  | unger r =>
      cases r with
      | complete p =>
          -- questions and answers carry no trees
          obtain ⟨order, -, horder⟩ := List.exists_of_findSome?_eq_some h
          obtain ⟨-, -, i, j, -, -, -, -, -, rfl⟩ := UngerRule.answer?_eq_some horder
          exact Or.inr fun y hy => List.mem_singleton.1 hy ▸ rfl
      | _ => exact Or.inl (hone hlen)
  | weighted r =>
      cases r with
      | product p =>
          exact Or.inl
            (hspan (WeightedRule.isDirected_joinProduct p) (fun _ _ => rfl) trivial hlen)
      | guided p e =>
          exact Or.inl
            (hspan (WeightedRule.isDirected_joinGuided p e) (fun _ _ => rfl) trivial hlen)
  | treeCyk r =>
      cases r with
      | moveBinary g =>
          exact Or.inl (honeWay (TreeCykRule.isOneWay_joinTwo g) (fun _ _ => rfl) hlen)
      | adjoin g => exact Or.inl (honeWay (TreeCykRule.isOneWay_wrap g) (fun _ _ => rfl) hlen)
      | _ => exact Or.inl (hone hlen)
  | treeEarley r =>
      cases r with
      | completeFoot g =>
          exact Or.inl (honeWay (TreeEarleyRule.isOneWay_fillFoot g) (fun _ _ => rfl) hlen)
      | completeNode g =>
          exact Or.inl (honeWay (TreeEarleyRule.isOneWay_closeNode g) (fun _ _ => rfl) hlen)
      | adjoin g => exact Or.inl (honeWay (TreeEarleyRule.isOneWay_wrap g) (fun _ _ => rfl) hlen)
      | _ => exact Or.inl (hone hlen)

end Rule

end DeductiveParsing
