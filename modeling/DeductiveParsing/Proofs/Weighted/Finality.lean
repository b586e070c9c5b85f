/-
The tables of costs are filled in such an order that no cell changes after it has been read.

* `ComesTo`: the intermediate results of a loop;
* `FindsInside`, `FindsOutside`: the tables that the steps of the loops over lengths find;
* `getElem?_of_findsInside`, `getElem?_of_findsOutside`: the cells that such a step reads are as
  they are at the end;
* `IsAtMost`: whether the cost in a cell is not greater than another one, which stays so;
* `isAtMost_insideTable`, `isAtMost_outsideTable`: at the end no cell costs more than one that is
  made up from others at the end.
-/
import DeductiveParsing.Proofs.Weighted.Estimates

namespace DeductiveParsing.Weighted

/-! ### Loops -/

section Loops

variable {α β : Type} {f : β → α → β} {init y : β} {xs : List α} {x : α} {P : β → Prop}

/-- Whether a loop comes to an element with an intermediate result. -/
def ComesTo (f : β → α → β) (init : β) (xs : List α) (x : α) (y : β) : Prop :=
  ∃ before behind, xs = before ++ x :: behind ∧ before.foldl f init = y

lemma exists_comesTo (f : β → α → β) (init : β) (hx : x ∈ xs) : ∃ y, ComesTo f init xs x y := by
  obtain ⟨before, behind, rfl⟩ := List.append_of_mem hx
  exact ⟨_, before, behind, rfl, rfl⟩

lemma ComesTo.mem (h : ComesTo f init xs x y) : x ∈ xs := by
  obtain ⟨before, behind, rfl, -⟩ := h
  simp

/-- What the steps preserve holds when the loop comes to an element. -/
lemma ComesTo.holds (h : ComesTo f init xs x y) (hinit : P init)
    (hstep : ∀ y, P y → ∀ x ∈ xs, P (f y x)) : P y := by
  obtain ⟨before, behind, rfl, rfl⟩ := h
  exact List.foldlRecOn before f hinit fun y hy x hx =>
    hstep y hy x (List.mem_append_left _ hx)

/-- What holds behind the step for an element, and is preserved by the steps for the elements behind
it, holds at the end. -/
lemma ComesTo.holds_foldl {R : α → α → Prop} (h : ComesTo f init xs x y) (hsorted : xs.Pairwise R)
    (hx : P (f y x)) (hstep : ∀ y, P y → ∀ x' ∈ xs, R x x' → P (f y x')) :
    P (xs.foldl f init) := by
  obtain ⟨before, behind, rfl, rfl⟩ := h
  rw [List.foldl_append, List.foldl_cons]
  have hbehind := (List.pairwise_cons.1 (List.pairwise_append.1 hsorted).2.1).1
  exact List.foldlRecOn behind f hx fun y hy x' hx' =>
    hstep y hy x' (by simp [hx']) (hbehind x' hx')

/-- So does what all steps preserve. -/
lemma ComesTo.holds_foldl_of_all (h : ComesTo f init xs x y) (hx : P (f y x))
    (hstep : ∀ y, P y → ∀ x ∈ xs, P (f y x)) : P (xs.foldl f init) :=
  h.holds_foldl (List.pairwise_of_forall fun _ _ => trivial) hx fun y hy x' hx' _ =>
    hstep y hy x' hx'

end Loops

variable {W : Type} [Weight W]

/-! ### Bounds -/

section Bounds

variable [OrderedWeight W] {C : Type} [BEq C] [Hashable C] [LawfulBEq C] [LawfulHashable C]
  {table : Std.HashMap C W} {cell cell' : C} {cost v : W}

omit [OrderedWeight W] [LawfulBEq C] [LawfulHashable C] in
/-- Whether the cost in a cell is not greater than another one. -/
def IsAtMost (table : Std.HashMap C W) (cell : C) (cost : W) : Prop :=
  ∃ v, table[cell]? = some v ∧ Weight.less cost v = false

/-- A relaxed cell does not cost more than what it was relaxed with. -/
lemma isAtMost_relax (table : Std.HashMap C W) (cell : C) (cost : W) :
    IsAtMost (relax table cell cost) cell cost := by
  refine ⟨_, by rw [getElem?_relax, if_pos (by simp)], ?_⟩
  split
  next => exact OrderedWeight.less_irrefl cost
  next hless => simpa using hless

/-- Relaxations do not raise any cost. -/
lemma IsAtMost.relax (h : IsAtMost table cell v) (cell' : C) (cost : W) :
    IsAtMost (relax table cell' cost) cell v := by
  obtain ⟨w, hw, hless⟩ := h
  rw [IsAtMost, getElem?_relax]
  by_cases heq : cell' = cell
  · subst heq
    rw [if_pos (by simp), hw, Option.getD_some]
    refine ⟨_, rfl, ?_⟩
    split
    next hcost =>
      by_contra hnot
      rw [OrderedWeight.less_trans _ _ _ (by simpa using hnot) hcost] at hless
      cases hless
    next => exact hless
  · rw [if_neg (by simpa using heq)]
    exact ⟨w, hw, hless⟩

end Bounds

variable {g : Grammar W} {p : Production W} {a : String} {i j k l m n : ℕ} {x : BinaryCost W}
  {out v w : W}

/-! ### Inside -/

section Inside

variable {binary : List (BinaryCost W)} {table : InsideTable W}

/-- Only the cells over `l` tokens are relaxed. -/
lemma getElem?_insideStep (hj : j ≠ l) (a : String) (table : InsideTable W) (k : ℕ) :
    (insideStep l x table k)[(a, j)]? = table[(a, j)]? := by
  rw [insideStep]
  split
  · rw [getElem?_relax_of_ne]
    simpa using fun _ => hj.symm
  · rfl

lemma getElem?_insideLength (hj : j ≠ l) (a : String) (table : InsideTable W) :
    (insideLength binary table l)[(a, j)]? = table[(a, j)]? :=
  List.foldlRecOn (motive := fun t => t[(a, j)]? = table[(a, j)]?) binary _ rfl fun _ h _ _ =>
    List.foldlRecOn (motive := fun t => t[(a, j)]? = table[(a, j)]?) _ _ h fun t h k _ =>
      (getElem?_insideStep hj a t k).trans h

/-- Whether the step for a production over `l` tokens, of which the first part has `k`, finds a
table of inside costs. -/
def FindsInside (g : Grammar W) (n l : ℕ) (x : BinaryCost W) (k : ℕ) (table : InsideTable W) :
    Prop :=
  ∃ t₁ t₂, ComesTo (insideLength (binaryCosts g)) (insideLexical g) (longLengths n) l t₁ ∧
    ComesTo (fun table x => (firstLengths l).foldl (insideStep l x) table) t₁ (binaryCosts g) x t₂ ∧
      ComesTo (insideStep l x) t₂ (firstLengths l) k table

lemma pairwise_longLengths (n : ℕ) : (longLengths n).Pairwise (· < ·) := List.pairwise_lt_range'

/-- The cells over fewer tokens are as they are at the end. -/
theorem getElem?_of_findsInside (h : FindsInside g n l x k table) (hj : j < l) (a : String) :
    table[(a, j)]? = (insideTable g n)[(a, j)]? := by
  obtain ⟨t₁, t₂, h₁, h₂, h₃⟩ := h
  have hend : (insideTable g n)[(a, j)]? = t₁[(a, j)]? :=
    h₁.holds_foldl (P := fun t => t[(a, j)]? = t₁[(a, j)]?) (pairwise_longLengths n)
      (getElem?_insideLength hj.ne a t₁) fun t ht l' _ hl' =>
        (getElem?_insideLength (hj.trans hl').ne a t).trans ht
  have hfold : ∀ (t : InsideTable W) (x : BinaryCost W),
      ((firstLengths l).foldl (insideStep l x) t)[(a, j)]? = t[(a, j)]? := fun t x =>
    List.foldlRecOn (motive := fun t' => t'[(a, j)]? = t[(a, j)]?) _ _ rfl fun t' h k _ =>
      (getElem?_insideStep hj.ne a t' k).trans h
  calc table[(a, j)]?
      = t₂[(a, j)]? := h₃.holds (P := fun t => t[(a, j)]? = t₂[(a, j)]?) rfl fun t ht k _ =>
          (getElem?_insideStep hj.ne a t k).trans ht
    _ = t₁[(a, j)]? := h₂.holds (P := fun t => t[(a, j)]? = t₁[(a, j)]?) rfl fun t ht x _ =>
          (hfold t x).trans ht
    _ = (insideTable g n)[(a, j)]? := hend.symm

variable [OrderedWeight W] {cell : String × ℕ}

lemma IsAtMost.insideStep (h : IsAtMost table cell v) (l : ℕ) (x : BinaryCost W) (k : ℕ) :
    IsAtMost (insideStep l x table k) cell v := by
  rw [Weighted.insideStep]
  split
  · exact h.relax _ _
  · exact h

lemma IsAtMost.foldl_insideStep (h : IsAtMost table cell v) (l : ℕ) (x : BinaryCost W)
    (ks : List ℕ) : IsAtMost (ks.foldl (Weighted.insideStep l x) table) cell v :=
  List.foldlRecOn (motive := fun t => IsAtMost t cell v) ks _ h fun _ h k _ => h.insideStep l x k

lemma IsAtMost.insideLength (h : IsAtMost table cell v) (binary : List (BinaryCost W)) (l : ℕ) :
    IsAtMost (insideLength binary table l) cell v :=
  List.foldlRecOn (motive := fun t => IsAtMost t cell v) binary _ h fun _ h x _ =>
    h.foldl_insideStep l x _

/-- At the end no name costs more over one token than a lexical production. -/
lemma isAtMost_insideTable_lexical (hp : p ∈ g.productions)
    (hlexical : p.production.isLexical = true) (n : ℕ) :
    IsAtMost (insideTable g n) (p.production.lhs, 1) (Weight.cost p.weight) := by
  refine List.foldlRecOn (motive := fun t => IsAtMost t _ _) (longLengths n) _ ?_
    fun _ h l _ => h.insideLength _ l
  have hmem : p ∈ g.productions.filter fun p => p.production.isLexical :=
    List.mem_filter.2 ⟨hp, hlexical⟩
  obtain ⟨table, hcomes⟩ := exists_comesTo
    (fun table p => relax table (p.production.lhs, 1) (Weight.cost p.weight)) (∅ : InsideTable W)
      hmem
  exact hcomes.holds_foldl_of_all (P := fun t => IsAtMost t _ _) (isAtMost_relax _ _ _)
    fun _ h q _ => h.relax _ _

/-- At the end no name costs more than a production of it together with its two parts. -/
theorem isAtMost_insideTable (hx : x ∈ binaryCosts g) (hk : 0 < k) (hm : 0 < m) (hle : k + m ≤ n)
    (hv : (insideTable g n)[(x.left, k)]? = some v)
    (hw : (insideTable g n)[(x.right, m)]? = some w) :
    IsAtMost (insideTable g n) (x.lhs, k + m) (Weight.add (Weight.add x.cost v) w) := by
  obtain ⟨t₁, h₁⟩ := exists_comesTo (insideLength (binaryCosts g)) (insideLexical g)
    (mem_longLengths.2 ⟨by omega, hle⟩ : k + m ∈ longLengths n)
  obtain ⟨t₂, h₂⟩ := exists_comesTo
    (fun table x => (firstLengths (k + m)).foldl (insideStep (k + m) x) table) t₁ hx
  obtain ⟨table, h₃⟩ := exists_comesTo (insideStep (k + m) x) t₂
    (mem_firstLengths.2 ⟨hk, by omega⟩ : k ∈ firstLengths (k + m))
  have hfinds : FindsInside g n (k + m) x k table := ⟨t₁, t₂, h₁, h₂, h₃⟩
  rw [← getElem?_of_findsInside hfinds (by omega)] at hv hw
  have hstep : IsAtMost (insideStep (k + m) x table k) (x.lhs, k + m)
      (Weight.add (Weight.add x.cost v) w) := by
    rw [insideStep, Nat.add_sub_cancel_left, hv, hw]
    exact isAtMost_relax _ _ _
  refine h₁.holds_foldl_of_all (P := fun t => IsAtMost t _ _) ?_ fun _ h l _ => h.insideLength _ l
  refine h₂.holds_foldl_of_all (P := fun t => IsAtMost t _ _) ?_
    fun _ h x _ => h.foldl_insideStep _ x _
  exact h₃.holds_foldl_of_all (P := fun t => IsAtMost t _ _) hstep fun _ h k _ => h.insideStep _ x k

end Inside

/-! ### Outside -/

section Outside

variable {binary : List (BinaryCost W)} {inside : InsideTable W} {table : OutsideTable W}

/-- Only cells over fewer than `l` tokens are relaxed. -/
lemma getElem?_outsideStep (hk : 0 < k) (hkl : k < l) (hj : l ≤ j) (a : String) (i' : ℕ)
    (table : OutsideTable W) :
    (outsideStep inside i l x out table k)[(a, i', j)]? = table[(a, i', j)]? := by
  have hleft : ∀ t : OutsideTable W, ∀ cost,
      (relax t (x.left, i, k) cost)[(a, i', j)]? = t[(a, i', j)]? := fun t cost => by
    rw [getElem?_relax_of_ne]
    simp only [ne_eq, Prod.mk.injEq, not_and]
    omega
  have hright : ∀ t : OutsideTable W, ∀ cost,
      (relax t (x.right, i + k, l - k) cost)[(a, i', j)]? = t[(a, i', j)]? := fun t cost => by
    rw [getElem?_relax_of_ne]
    simp only [ne_eq, Prod.mk.injEq, not_and]
    omega
  rw [outsideStep]
  split <;> split <;> simp only [hleft, hright]

lemma getElem?_outsideBelow (hj : l ≤ j) (a : String) (i' : ℕ) (table : OutsideTable W) :
    (outsideBelow inside i l table x)[(a, i', j)]? = table[(a, i', j)]? := by
  rw [outsideBelow]
  split
  · refine List.foldlRecOn (motive := fun t => t[(a, i', j)]? = table[(a, i', j)]?) _ _ rfl
      fun t h k hk => ?_
    obtain ⟨hpos, hlt⟩ := mem_firstLengths.1 hk
    exact (getElem?_outsideStep hpos hlt hj a i' t).trans h
  · rfl

/-- Whether the step for a production over the `l` tokens behind the first `i` finds a table of
costs around names. -/
def FindsOutside (g : Grammar W) (inside : InsideTable W) (n l i : ℕ) (x : BinaryCost W)
    (table : OutsideTable W) : Prop :=
  ∃ t₁ t₂, ComesTo (outsideLength (binaryCosts g) inside n)
      ((∅ : OutsideTable W).insert (g.start, 0, n) Weight.zero) (longLengths n).reverse l t₁ ∧
    ComesTo (fun table i => (binaryCosts g).foldl (outsideBelow inside i l) table) t₁
      (List.range (n - l + 1)) i t₂ ∧
      ComesTo (outsideBelow inside i l) t₂ (binaryCosts g) x table

/-- The cells over at least `l` tokens are as they are at the end. -/
theorem getElem?_of_findsOutside (h : FindsOutside g inside n l i x table) (hj : l ≤ j) (a : String)
    (i' : ℕ) : table[(a, i', j)]? = (outsideTable g inside n)[(a, i', j)]? := by
  obtain ⟨t₁, t₂, h₁, h₂, h₃⟩ := h
  have hsorted : (longLengths n).reverse.Pairwise (· > ·) :=
    List.pairwise_reverse.2 (pairwise_longLengths n)
  have hend : (outsideTable g inside n)[(a, i', j)]? = t₁[(a, i', j)]? :=
    h₁.holds_foldl (P := fun t => t[(a, i', j)]? = t₁[(a, i', j)]?) hsorted
      (getElem?_outsideLength hj) fun t ht l' _ hl' =>
        (getElem?_outsideLength (hl'.le.trans hj)).trans ht
  have hfold : ∀ (t : OutsideTable W) (i : ℕ),
      ((binaryCosts g).foldl (outsideBelow inside i l) t)[(a, i', j)]? = t[(a, i', j)]? :=
    fun t i => List.foldlRecOn (motive := fun t' => t'[(a, i', j)]? = t[(a, i', j)]?) _ _ rfl
      fun t' h x _ => (getElem?_outsideBelow hj a i' t').trans h
  calc table[(a, i', j)]?
      = t₂[(a, i', j)]? := h₃.holds (P := fun t => t[(a, i', j)]? = t₂[(a, i', j)]?) rfl
          fun t ht x _ => (getElem?_outsideBelow hj a i' t).trans ht
    _ = t₁[(a, i', j)]? := h₂.holds (P := fun t => t[(a, i', j)]? = t₁[(a, i', j)]?) rfl
          fun t ht i _ => (hfold t i).trans ht
    _ = (outsideTable g inside n)[(a, i', j)]? := hend.symm

variable [OrderedWeight W] {cell : String × ℕ × ℕ}

lemma IsAtMost.outsideStep (h : IsAtMost table cell v) (inside : InsideTable W) (i l : ℕ)
    (x : BinaryCost W) (out : W) (k : ℕ) :
    IsAtMost (outsideStep inside i l x out table k) cell v := by
  rw [Weighted.outsideStep]
  split <;> split
  · exact (h.relax _ _).relax _ _
  · exact h.relax _ _
  · exact h.relax _ _
  · exact h

lemma IsAtMost.outsideBelow (h : IsAtMost table cell v) (inside : InsideTable W) (i l : ℕ)
    (x : BinaryCost W) : IsAtMost (outsideBelow inside i l table x) cell v := by
  rw [Weighted.outsideBelow]
  split
  · exact List.foldlRecOn (motive := fun t => IsAtMost t cell v) _ _ h fun _ h k _ =>
      h.outsideStep inside i l x _ k
  · exact h

lemma IsAtMost.foldl_outsideBelow (h : IsAtMost table cell v) (binary : List (BinaryCost W))
    (inside : InsideTable W) (i l : ℕ) :
    IsAtMost (binary.foldl (Weighted.outsideBelow inside i l) table) cell v :=
  List.foldlRecOn (motive := fun t => IsAtMost t cell v) binary _ h fun _ h x _ =>
    h.outsideBelow inside i l x

lemma IsAtMost.outsideLength (h : IsAtMost table cell v) (binary : List (BinaryCost W))
    (inside : InsideTable W) (n l : ℕ) :
    IsAtMost (outsideLength binary inside n table l) cell v :=
  List.foldlRecOn (motive := fun t => IsAtMost t cell v) (List.range (n - l + 1)) _ h fun _ h i _ =>
    h.foldl_outsideBelow binary inside i l

/-- A step relaxes the cells of both parts of a production. -/
lemma isAtMost_outsideStep (inside : InsideTable W) (i m : ℕ) (x : BinaryCost W) (out : W)
    (table : OutsideTable W) (k : ℕ) :
    (∀ w, inside[(x.right, m)]? = some w →
      IsAtMost (outsideStep inside i (k + m) x out table k) (x.left, i, k)
        (Weight.add (Weight.add out x.cost) w)) ∧
    ∀ v, inside[(x.left, k)]? = some v →
      IsAtMost (outsideStep inside i (k + m) x out table k) (x.right, i + k, m)
        (Weight.add (Weight.add out x.cost) v) := by
  rw [outsideStep, Nat.add_sub_cancel_left]
  refine ⟨fun w hw => ?_, fun v hv => ?_⟩
  · rw [hw]
    split
    · exact (isAtMost_relax _ _ _).relax _ _
    · exact isAtMost_relax _ _ _
  · rw [hv]
    exact isAtMost_relax _ _ _

/-- At the end the cost around a part of a production is not more than that around the whole
together with the production and the other part. -/
theorem isAtMost_outsideTable (hx : x ∈ binaryCosts g) (hk : 0 < k) (hm : 0 < m)
    (hle : i + (k + m) ≤ n) (hout : (outsideTable g inside n)[(x.lhs, i, k + m)]? = some out) :
    (∀ w, inside[(x.right, m)]? = some w →
      IsAtMost (outsideTable g inside n) (x.left, i, k) (Weight.add (Weight.add out x.cost) w)) ∧
    ∀ v, inside[(x.left, k)]? = some v →
      IsAtMost (outsideTable g inside n) (x.right, i + k, m)
        (Weight.add (Weight.add out x.cost) v) := by
  obtain ⟨t₁, h₁⟩ := exists_comesTo (outsideLength (binaryCosts g) inside n)
    ((∅ : OutsideTable W).insert (g.start, 0, n) Weight.zero)
      (List.mem_reverse.2 (mem_longLengths.2 ⟨by omega, by omega⟩) :
        k + m ∈ (longLengths n).reverse)
  obtain ⟨t₂, h₂⟩ := exists_comesTo
    (fun table i => (binaryCosts g).foldl (outsideBelow inside i (k + m)) table) t₁
      (List.mem_range.2 (by omega) : i ∈ List.range (n - (k + m) + 1))
  obtain ⟨t₃, h₃⟩ := exists_comesTo (outsideBelow inside i (k + m)) t₂ hx
  have hfinds : FindsOutside g inside n (k + m) i x t₃ := ⟨t₁, t₂, h₁, h₂, h₃⟩
  rw [← getElem?_of_findsOutside hfinds le_rfl] at hout
  obtain ⟨table, h₄⟩ := exists_comesTo (outsideStep inside i (k + m) x out) t₃
    (mem_firstLengths.2 ⟨hk, by omega⟩ : k ∈ firstLengths (k + m))
  -- what holds behind that step holds at the end
  have hend : ∀ {cell v}, IsAtMost (outsideStep inside i (k + m) x out table k) cell v →
      IsAtMost (outsideTable g inside n) cell v := by
    intro cell v hstep
    refine h₁.holds_foldl_of_all (P := fun t => IsAtMost t cell v) ?_
      fun _ h l _ => h.outsideLength _ inside n l
    refine h₂.holds_foldl_of_all (P := fun t => IsAtMost t cell v) ?_
      fun _ h i _ => h.foldl_outsideBelow _ inside i _
    refine h₃.holds_foldl_of_all (P := fun t => IsAtMost t cell v) ?_
      fun _ h x _ => h.outsideBelow inside i _ x
    rw [outsideBelow, hout]
    exact h₄.holds_foldl_of_all (P := fun t => IsAtMost t cell v) hstep
      fun _ h k _ => h.outsideStep inside i _ x out k
  obtain ⟨hleft, hright⟩ := isAtMost_outsideStep inside i m x out table k
  exact ⟨fun w hw => hend (hleft w hw), fun v hv => hend (hright v hv)⟩

end Outside

end DeductiveParsing.Weighted
