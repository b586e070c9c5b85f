/-
Elementary trees without anchors.

* `Grammar.anchors`: the number of leaves that can only be read as a token;
* `Grammar.LeadsTo`: a tree without anchors takes up another one;
* `Grammar.not_transGen_leadsTo_of_rank`: with ranks that fall, no tree leads to itself;
* `Grammar.paysFor_of_derives`: if elementary trees have costs that pay for everything they take up
  before the next anchor, the size of a derived tree is bounded by the number of its anchors;
* `Grammar.exists_costs`: there are such costs, unless trees without anchors lead from one to
  itself;
* `Grammar.SizeBounds`: what follows for sizes.
-/
import DeductiveParsing.Proofs.Tree.Size
import DeductiveParsing.Proofs.TreeAdjoining.Derivation

namespace DeductiveParsing.TreeAdjoining.Grammar

open Relation

variable {g : Grammar} {Stays : Tree → Prop} {t u v : Tree} {us : List Tree}

/-! ### Anchors -/

/-- The number of leaves that can neither be filled nor be passed without a token. -/
def anchors (g : Grammar) (t : Tree) : ℕ := t.count fun u => u.isOpen && !g.isNonterminal u.label

lemma isShallow_anchor (g : Grammar) :
    Tree.IsShallow fun u => u.isOpen && !g.isNonterminal u.label := by
  intro t cs h
  simp only [Tree.isOpen, Tree.isLeaf, Tree.isEpsilon, h]

lemma anchors_of_leaf (hleaf : t.children = []) :
    g.anchors t = if (t.isOpen && !g.isNonterminal t.label) = true then 1 else 0 := by
  rw [anchors, Tree.count_eq, hleaf]
  simp

lemma anchors_of_children (hinner : t.children ≠ []) :
    g.anchors t = (t.children.map g.anchors).sum := by
  have hopen : t.isOpen = false := by simp [Tree.isOpen, Tree.isLeaf, hinner]
  rw [anchors, Tree.count_eq, hopen]
  rfl

lemma anchors_of_isSite (hsite : g.IsSite t) : g.anchors t = 0 := by
  rw [anchors_of_leaf hsite.1]
  simp [isNonterminal, hsite.2.2]

lemma anchors_of_foot (hleaf : t.children = []) (hfoot : t.foot = true) : g.anchors t = 0 := by
  rw [anchors_of_leaf hleaf]
  simp [Tree.isOpen, hfoot]

lemma anchors_of_isEpsilon (hempty : t.isEpsilon = true) : g.anchors t = 0 := by
  rw [anchors_of_leaf (Tree.isEpsilon_iff.1 hempty).1]
  simp [Tree.isOpen, hempty]

/-- A tree at the only foot brings its anchors along. -/
lemma anchors_atFoot (hone : t.frontier.count none = 1) :
    g.anchors (Tree.atFoot v t) = g.anchors t + g.anchors v := by
  have h := Tree.count_atFoot g.isShallow_anchor v t
  have hnone : (fun u : Tree => u.foot && u.isLeaf && (u.isOpen && !g.isNonterminal u.label)) =
      fun _ => false := by
    funext u
    cases hfoot : u.foot <;> simp [Tree.isOpen, hfoot]
  have hzero : t.count (fun _ => false) = 0 := by
    rw [Tree.count, List.countP_eq_zero]
    simp
  rw [hnone, hzero, hone, Nat.one_mul] at h
  exact h

/-! ### Trees that are taken up -/

/-- Whether a node of a tree can take up an elementary tree: a substitution node an initial tree and
an inner node an auxiliary tree with its label. -/
def TakesUp (g : Grammar) (t u : Tree) : Prop :=
  ∃ v ∈ t.nodes.map Prod.snd, u.label = v.label ∧
    (g.IsSite v ∧ u ∈ g.initial.map Prod.snd ∨ v.children ≠ [] ∧ u ∈ g.auxiliary.map Prod.snd)

/-- Whether a tree without anchors takes up another one. -/
def LeadsTo (g : Grammar) (t u : Tree) : Prop :=
  g.anchors t = 0 ∧ g.anchors u = 0 ∧ g.TakesUp t u

lemma TakesUp.mem_trees (h : g.TakesUp t u) : u ∈ g.trees.map Prod.snd := by
  obtain ⟨v, -, -, ⟨-, hu⟩ | ⟨-, hu⟩⟩ := h <;> rw [trees, List.map_append]
  · exact List.mem_append_left _ hu
  · exact List.mem_append_right _ hu

/-- A node takes up what its children take up. -/
lemma TakesUp.of_child {c : Tree} (hc : c ∈ t.children) (h : g.TakesUp c u) : g.TakesUp t u := by
  obtain ⟨v, hv, h⟩ := h
  refine ⟨v, ?_, h⟩
  rw [Tree.map_snd_nodes]
  exact List.mem_cons_of_mem _ (List.mem_flatMap.2 ⟨c, hc, hv⟩)

instance (g : Grammar) (t : Tree) : Decidable (g.IsSite t) := inferInstanceAs (Decidable (_ ∧ _ ∧ _))

instance (g : Grammar) (t u : Tree) : Decidable (g.LeadsTo t u) :=
  inferInstanceAs (Decidable (_ ∧ _ ∧ ∃ v ∈ t.nodes.map Prod.snd, _ ∧ (_ ∧ _ ∨ _ ∧ _)))

/-- Whatever a tree leads to is an elementary tree. -/
lemma mem_trees_of_transGen (h : TransGen g.LeadsTo t u) : u ∈ g.trees.map Prod.snd := by
  obtain ⟨_, -, -, -, hlast⟩ := TransGen.tail'_iff.1 h
  exact hlast.mem_trees

/-- No tree leads to itself if elementary trees lead to trees of lower ranks only. -/
lemma not_transGen_leadsTo_of_rank (rank : Tree → ℕ) (h : ∀ t ∈ g.trees.map Prod.snd,
    ∀ u ∈ g.trees.map Prod.snd, g.LeadsTo t u → rank u < rank t) (t : Tree) :
    ¬TransGen g.LeadsTo t t := by
  have hrank : ∀ {u}, t ∈ g.trees.map Prod.snd → TransGen g.LeadsTo t u → rank u < rank t := by
    intro u ht hu
    induction hu with
    | single hlast => exact h _ ht _ hlast.2.2.mem_trees hlast
    | tail hu hlast ih =>
        exact (h _ (mem_trees_of_transGen hu) _ hlast.2.2.mem_trees hlast).trans ih
  exact fun hcycle => (hrank (mem_trees_of_transGen hcycle) hcycle).false

/-! ### Costs -/

/-- Whether the costs of all elementary trees pay for their nodes and for what any of these nodes
takes up. An anchor contributes `c`. -/
def HasCosts (g : Grammar) (cost : Tree → ℕ) (c : ℕ) : Prop :=
  ∀ t ∈ g.trees.map Prod.snd, ∃ most, (∀ u, g.TakesUp t u → cost u ≤ most) ∧
    t.size * (1 + most) ≤ cost t + c * g.anchors t

section Costs

variable {cost : Tree → ℕ} {c most : ℕ}

/-- Whether the nodes of a tree, what they take up and anchors pay for the nodes of another one. -/
def PaysFor (g : Grammar) (cost : Tree → ℕ) (c : ℕ) (t u : Tree) : Prop :=
  ∀ most, (∀ v, g.TakesUp t v → cost v ≤ most) →
    u.size + c * g.anchors t ≤ t.size * (1 + most) + c * g.anchors u

/-- What is derived from an elementary tree is paid for by its cost and by anchors. -/
lemma PaysFor.size_le (hcosts : g.HasCosts cost c) (ht : t ∈ g.trees.map Prod.snd)
    (h : g.PaysFor cost c t u) : u.size ≤ cost t + c * g.anchors u := by
  obtain ⟨most, hmost, hle⟩ := hcosts t ht
  have := h most hmost
  omega

/-- An inner node whose children pay for others still has its own share. -/
lemma size_add_le_of_children (hinner : t.children ≠ [])
    (hus : List.Forall₂ (g.PaysFor cost c) t.children us)
    (hmost : ∀ v, g.TakesUp t v → cost v ≤ most) :
    ({ t with children := us } : Tree).size + most + c * g.anchors t ≤
      t.size * (1 + most) + c * g.anchors { t with children := us } := by
  have hne : us ≠ [] := by
    rintro rfl
    exact hinner (List.forall₂_nil_right_iff.1 hus)
  have hsum : ∀ {ts us : List Tree}, (∀ t' ∈ ts, t' ∈ t.children) →
      List.Forall₂ (g.PaysFor cost c) ts us →
      (us.map Tree.size).sum + c * (ts.map g.anchors).sum ≤
        (ts.map Tree.size).sum * (1 + most) + c * (us.map g.anchors).sum := by
    intro ts us hts hus
    induction hus with
    | nil => simp
    | cons hu _ ihus =>
        have hfirst := hu most fun v hv => hmost v (hv.of_child (hts _ List.mem_cons_self))
        have hrest := ihus fun t' ht' => hts t' (List.mem_cons_of_mem _ ht')
        simp only [List.map_cons, List.sum_cons, Nat.mul_add, Nat.add_mul] at *
        omega
  have hle := hsum (fun t' ht' => ht') hus
  rw [anchors_of_children hinner, anchors_of_children (t := { t with children := us }) hne,
    Tree.size_eq t, Tree.size_eq { t with children := us }, Nat.add_mul]
  simp only
  omega

/-- A tree pays for all trees that are derived from it. -/
theorem paysFor_of_derives (hcosts : g.HasCosts cost c) (hg : g.IsWellFormed)
    (hfeet : g.HasLeafFeet) (h : g.Derives Stays t u) : g.PaysFor cost c t u := by
  have hroot : ∀ t : Tree, t ∈ t.nodes.map Prod.snd := by
    intro t
    rw [Tree.map_snd_nodes]
    exact List.mem_cons_self
  refine Derives.ind ?stay ?substitute ?inner ?adjoin h
  case stay =>
    exact fun t _ _ most _ => Nat.add_le_add_right (Nat.le_mul_of_pos_right _ (by omega)) _
  case substitute =>
    intro t u alpha name hsite hmem hlabel _ ih most hmost
    have hle : u.size ≤ cost alpha + c * g.anchors u :=
      ih.size_le hcosts (List.mem_map_of_mem (List.mem_append_left _ hmem))
    have hcost := hmost alpha
      ⟨t, hroot t, hlabel, Or.inl ⟨hsite, List.mem_map_of_mem hmem⟩⟩
    rw [anchors_of_isSite hsite, Tree.size_eq t, hsite.1]
    simp only [List.map_nil, List.sum_nil]
    omega
  case inner =>
    intro t us hne _ ih most hmost
    have := size_add_le_of_children hne ih hmost
    omega
  case adjoin =>
    intro t us beta b name hne _ ihus hmem hlabel hb ihb most hmost
    have hle := size_add_le_of_children hne ihus hmost
    have hle' : b.size ≤ cost beta + c * g.anchors b :=
      ihb.size_le hcosts (List.mem_map_of_mem (List.mem_append_right _ hmem))
    have hcost := hmost beta
      ⟨t, hroot t, hlabel, Or.inr ⟨hne, List.mem_map_of_mem hmem⟩⟩
    have hone : b.frontier.count none = 1 := by
      rw [hg.count_none_derives hfeet hb, hg.count_none_auxiliary hfeet hmem]
    have hsize := Tree.size_atFoot (v := { t with children := us }) hone
    rw [anchors_atFoot hone, Nat.mul_add c]
    omega

end Costs

/-- The number of trees that trees without anchors lead to from one. -/
noncomputable def reach (g : Grammar) (t : Tree) : ℕ := {u | TransGen g.LeadsTo t u}.ncard

lemma reach_le (g : Grammar) (t : Tree) : g.reach t ≤ {u | u ∈ g.trees.map Prod.snd}.ncard := by
  exact Set.ncard_le_ncard (fun u hu => mem_trees_of_transGen hu) (List.finite_toSet _)

/-- Unless such trees lead from one to itself, every one of them leads to more trees than the next
one. -/
lemma reach_lt (hacyclic : ∀ t, ¬TransGen g.LeadsTo t t) (h : g.LeadsTo t u) :
    g.reach u < g.reach t := by
  have hfinite : {v | TransGen g.LeadsTo t v}.Finite :=
    (List.finite_toSet (g.trees.map Prod.snd)).subset fun v hv => mem_trees_of_transGen hv
  refine Set.ncard_lt_ncard ⟨fun v hv => .head h hv, fun hsub => ?_⟩ hfinite
  exact hacyclic u (hsub (.single h))

/-- The cost of a tree, where `m` bounds the sizes of elementary trees: a power that grows with the
number of trees without anchors that it leads to. Anchors pay for themselves. -/
noncomputable def costWithin (g : Grammar) (m : ℕ) (t : Tree) : ℕ :=
  if g.anchors t = 0 then (m + 1) ^ (g.reach t + 2) else 0

lemma costWithin_le {m n : ℕ} (h : g.anchors t = 0 → g.reach t + 2 ≤ n) :
    g.costWithin m t ≤ (m + 1) ^ n := by
  rw [costWithin]
  split
  · rename_i hanchors
    exact Nat.pow_le_pow_right (Nat.succ_pos m) (h hanchors)
  · exact Nat.zero_le _

/-- Unless trees without anchors lead from one to itself, there are costs. -/
theorem exists_costs (hacyclic : ∀ t, ¬TransGen g.LeadsTo t t) :
    ∃ (cost : Tree → ℕ) (c most : ℕ), (∀ t, cost t ≤ most) ∧ g.HasCosts cost c := by
  obtain ⟨m, hm⟩ : ∃ m, ∀ t ∈ g.trees.map Prod.snd, t.size ≤ m :=
    ⟨((g.trees.map Prod.snd).map Tree.size).sum, fun t ht =>
      List.le_sum_of_mem (List.mem_map_of_mem ht)⟩
  obtain ⟨k, hk⟩ : ∃ k, ∀ t, g.reach t ≤ k := ⟨_, g.reach_le⟩
  have hmost : ∀ t, g.costWithin m t ≤ (m + 1) ^ (k + 2) := fun t =>
    costWithin_le fun _ => Nat.add_le_add_right (hk t) 2
  -- the next power pays for all nodes of a tree and what they take up
  have hpays : ∀ t ∈ g.trees.map Prod.snd, ∀ n,
      t.size * (1 + (m + 1) ^ (n + 1)) ≤ (m + 1) ^ (n + 2) := by
    intro t ht n
    have hpow : m + 1 ≤ (m + 1) ^ (n + 1) := Nat.le_self_pow (Nat.succ_ne_zero n) (m + 1)
    calc t.size * (1 + (m + 1) ^ (n + 1)) ≤ m * (1 + (m + 1) ^ (n + 1)) :=
          Nat.mul_le_mul_right _ (hm t ht)
      _ = m * (m + 1) ^ (n + 1) + m := by ring
      _ ≤ m * (m + 1) ^ (n + 1) + (m + 1) ^ (n + 1) := by omega
      _ = (m + 1) ^ (n + 2) := by ring
  refine ⟨g.costWithin m, (m + 1) ^ (k + 3), _, hmost, fun t ht => ?_⟩
  by_cases hanchors : g.anchors t = 0
  · refine ⟨(m + 1) ^ (g.reach t + 1), fun u hu => costWithin_le fun hu' => ?_, ?_⟩
    · have := reach_lt hacyclic ⟨hanchors, hu', hu⟩
      omega
    · rw [costWithin, if_pos hanchors]
      exact (hpays t ht _).trans (Nat.le_add_right _ _)
  · refine ⟨(m + 1) ^ (k + 2), fun u _ => hmost u, ?_⟩
    calc t.size * (1 + (m + 1) ^ (k + 2)) ≤ (m + 1) ^ (k + 3) := hpays t ht (k + 1)
      _ ≤ (m + 1) ^ (k + 3) * g.anchors t := Nat.le_mul_of_pos_right _ (Nat.pos_of_ne_zero hanchors)
      _ ≤ g.costWithin m t + (m + 1) ^ (k + 3) * g.anchors t := Nat.le_add_left _ _

/-! ### Bounds -/

/-- Bounds for sizes: those of elementary trees, and those of derived trees, by the size of the tree
they are derived from and the number of their anchors. -/
structure SizeBounds (g : Grammar) where
  nodes : ℕ
  factor : ℕ
  anchor : ℕ
  factor_pos : 0 < factor
  size_le : ∀ t ∈ g.trees.map Prod.snd, t.size ≤ nodes
  size_le_of_derives : ∀ t u, g.Derives g.MayStay t u →
    u.size ≤ t.size * factor + anchor * g.anchors u

/-- Unless trees without anchors lead from one to itself, sizes are bounded. -/
theorem nonempty_sizeBounds (hg : g.IsWellFormed) (hfeet : g.HasLeafFeet)
    (hacyclic : ∀ t, ¬TransGen g.LeadsTo t t) : Nonempty g.SizeBounds := by
  obtain ⟨cost, c, most, hmost, hcosts⟩ := exists_costs hacyclic
  exact ⟨{
    nodes := ((g.trees.map Prod.snd).map Tree.size).sum
    factor := 1 + most
    anchor := c
    factor_pos := by omega
    size_le := fun t ht => List.le_sum_of_mem (List.mem_map_of_mem ht)
    size_le_of_derives := fun t u h =>
      le_of_add_le_left (paysFor_of_derives hcosts hg hfeet h most fun v _ => hmost v) }⟩

end DeductiveParsing.TreeAdjoining.Grammar
