/-
Sizes of trees.

* `Tree.size`: the number of nodes;
* `Tree.count_atFoot`: what a tree at the foot adds to a number of nodes;
* `Tree.finite_size_le`: there are finitely many trees of bounded size over finitely many labels;
* `Tree.shallow`, `Tree.finite_shallow`: the same for trees of bounded height and width.
-/
import DeductiveParsing.Proofs.Choice
import DeductiveParsing.Proofs.Tree.Surgery

namespace DeductiveParsing.Tree

variable {t t' u v : Tree} {path : List ℕ} {p : Tree → Bool}

/-- The number of nodes. -/
def size (t : Tree) : ℕ := t.count fun _ => true

lemma size_eq (t : Tree) : t.size = (t.children.map size).sum + 1 := by
  rw [size, count_eq]
  rfl

lemma size_replaceOn? (hv : t.subtreeOn? path = some v) (h : t.replaceOn? path u = some t') :
    t'.size + v.size = t.size + u.size :=
  count_replaceOn? (fun _ _ _ => rfl) hv h

/-- The subtrees of a node are subtrees of the whole tree. -/
lemma Everywhere.of_subtreeOn? {P : Tree → Prop} (ht : t.Everywhere P)
    (hu : t.subtreeOn? path = some u) : u.Everywhere P := by
  induction path generalizing t with
  | nil =>
      rw [subtreeOn?, Option.some.injEq] at hu
      exact hu ▸ ht
  | cons n path ih =>
      cases n with
      | zero => simp [subtreeOn?] at hu
      | succ n =>
          rw [subtreeOn?_succ] at hu
          obtain ⟨c, hc, hu⟩ := Option.bind_eq_some_iff.1 hu
          exact ih ((everywhere_iff.1 ht).2 c (List.mem_of_getElem? hc)) hu

/-- A subtree is not larger than the tree. -/
lemma size_le_of_subtreeOn? (hu : t.subtreeOn? path = some u) : u.size ≤ t.size := by
  induction path generalizing t with
  | nil =>
      rw [subtreeOn?, Option.some.injEq] at hu
      exact hu ▸ le_rfl
  | cons n path ih =>
      cases n with
      | zero => simp [subtreeOn?] at hu
      | succ n =>
          rw [subtreeOn?_succ] at hu
          obtain ⟨c, hc, hu⟩ := Option.bind_eq_some_iff.1 hu
          have hle := List.le_sum_of_mem (List.mem_map_of_mem (f := size) (List.mem_of_getElem? hc))
          rw [size_eq t]
          have := ih hu
          omega

/-- A tree at the feet adds its nodes, once for each foot that is left out. -/
lemma count_atFoot (hp : IsShallow p) (v t : Tree) :
    (atFoot v t).count p + t.count (fun u => u.foot && u.isLeaf && p u) =
      t.count p + t.frontier.count none * v.count p := by
  induction t using ind with
  | h label foot children ih =>
      rw [count_eq p ⟨label, foot, children⟩, count_eq (fun u => _) ⟨label, foot, children⟩]
      by_cases hleaf : children = []
      · subst hleaf
        cases foot with
        | true =>
            rw [atFoot_of_foot v rfl rfl, frontier_of_foot rfl rfl]
            simp [isLeaf, Nat.add_comm]
        | false =>
            have hnone : (⟨label, false, []⟩ : Tree).frontier.count none = 0 := by
              rw [count_none_frontier, map_snd_nodes]
              simp
            rw [atFoot_of_leaf v rfl rfl, hnone, count_eq p ⟨label, false, []⟩]
            simp
      · have hsum : ∀ cs : List Tree, (∀ c ∈ cs, c ∈ children) →
            ((cs.map (atFoot v)).map (count p)).sum +
                (cs.map (count fun u => u.foot && u.isLeaf && p u)).sum =
              (cs.map (count p)).sum + (cs.flatMap frontier).count none * v.count p := by
          intro cs
          induction cs with
          | nil => simp
          | cons c cs ihcs =>
              intro hcs
              have hc := ih c (hcs c List.mem_cons_self)
              have hrest := ihcs fun d hd => hcs d (List.mem_cons_of_mem _ hd)
              simp only [List.map_cons, List.sum_cons, List.flatMap_cons, List.count_append,
                Nat.add_mul]
              omega
        have hinner : (⟨label, foot, children⟩ : Tree).isLeaf = false := by
          simpa [isLeaf] using hleaf
        have hroot : p ⟨label, foot, children.map (atFoot v)⟩ = p ⟨label, foot, children⟩ :=
          hp ⟨label, foot, children⟩ _ (by rw [List.isEmpty_map])
        rw [atFoot_of_children v (t := ⟨label, foot, children⟩) hleaf,
          frontier_of_children (t := ⟨label, foot, children⟩) hleaf,
          count_eq p ⟨label, foot, children.map (atFoot v)⟩, hroot, hinner]
        have := hsum children fun c hc => hc
        simp only [Bool.and_false, Bool.false_and, Bool.false_eq_true, if_false]
        omega

/-- A tree at the only foot takes the place of one node. -/
lemma size_atFoot (hone : t.frontier.count none = 1) : (atFoot v t).size + 1 = t.size + v.size := by
  have h := count_atFoot (p := fun _ => true) (fun _ _ _ => rfl) v t
  simp only [Bool.and_true] at h
  rw [← count_none_frontier_eq_count, hone, Nat.one_mul] at h
  exact h

/-- There are finitely many trees of bounded size over finitely many labels. -/
theorem finite_size_le (labels : List String) (n : ℕ) :
    {t : Tree | t.Everywhere (fun u => u.label ∈ labels) ∧ t.size ≤ n}.Finite := by
  induction n with
  | zero =>
      refine Set.finite_empty.subset fun t ht => ?_
      have := size_eq t
      have := ht.2
      omega
  | succ n ih =>
      have hforests : {cs : List Tree | cs.length ≤ n ∧ ∀ c ∈ cs, c ∈ ih.toFinset.toList}.Finite :=
        Choice.finite_lists _ n
      refine (Set.Finite.image2 (fun (root : String × Bool) cs => Tree.mk root.1 root.2 cs)
        ((List.finite_toSet labels).prod Set.finite_univ) hforests).subset ?_
      rintro ⟨label, foot, children⟩ ⟨hlabels, hsize⟩
      obtain ⟨hlabel, hchildren⟩ := everywhere_iff.1 hlabels
      rw [size_eq] at hsize
      have hlength : children.length ≤ (children.map size).sum := by
        have hone := List.card_nsmul_le_sum (children.map size) 1 fun n hn => by
          obtain ⟨c, -, rfl⟩ := List.mem_map.1 hn
          rw [size_eq]
          omega
        simpa using hone
      refine ⟨(label, foot), ⟨hlabel, Set.mem_univ _⟩, children, ⟨?_, fun c hc => ?_⟩, rfl⟩
      · simp only at hsize
        omega
      · have hle := List.le_sum_of_mem (List.mem_map_of_mem (f := size) hc)
        simp only at hsize
        rw [Finset.mem_toList, Set.Finite.mem_toFinset]
        exact ⟨hchildren c hc, by omega⟩

/-- The trees over given labels with at most `n` levels below the root and at most `width` children
at each node. -/
def shallow (labels : List String) (width : ℕ) : ℕ → Set Tree
  | 0 => {t | t.label ∈ labels ∧ t.children = []}
  | n + 1 => {t | t.label ∈ labels ∧ t.children.length ≤ width ∧
      ∀ c ∈ t.children, c ∈ shallow labels width n}

lemma leaf_mem_shallow {labels : List String} {width n : ℕ} (hlabel : t.label ∈ labels)
    (hleaf : t.children = []) : t ∈ shallow labels width n := by
  cases n with
  | zero => exact ⟨hlabel, hleaf⟩
  | succ n => exact ⟨hlabel, by simp [hleaf], by simp [hleaf]⟩

theorem finite_shallow (labels : List String) (width n : ℕ) : (shallow labels width n).Finite := by
  induction n with
  | zero =>
      refine (((List.finite_toSet labels).prod Set.finite_univ).image
        fun root : String × Bool => Tree.mk root.1 root.2 []).subset ?_
      rintro ⟨label, foot, children⟩ ⟨hlabel, rfl⟩
      exact ⟨(label, foot), ⟨hlabel, Set.mem_univ _⟩, rfl⟩
  | succ n ih =>
      refine (Set.Finite.image2 (fun (root : String × Bool) cs => Tree.mk root.1 root.2 cs)
        ((List.finite_toSet labels).prod Set.finite_univ)
        (Choice.finite_lists ih.toFinset.toList width)).subset ?_
      rintro ⟨label, foot, children⟩ ⟨hlabel, hwidth, hchildren⟩
      refine ⟨(label, foot), ⟨hlabel, Set.mem_univ _⟩, children, ⟨hwidth, fun c hc => ?_⟩, rfl⟩
      rw [Finset.mem_toList, Set.Finite.mem_toFinset]
      exact hchildren c hc

end DeductiveParsing.Tree
