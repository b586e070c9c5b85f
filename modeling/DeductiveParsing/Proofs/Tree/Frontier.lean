/-
What a tree spells: its leaves from left to right, without those for the empty string, and with a
hole for each foot.

* `Tree.frontier`: the leaves in order;
* `Tree.leafLabels`: the labels of all leaves;
* `Tree.atFoot`: a tree with another one in the place of its foot;
* `Tree.frontier_atFoot`: its frontier is that of the first tree with the other one's in the hole;
* `Tree.count_none_frontier`: there are as many holes as feet without children.
-/
import DeductiveParsing.Proofs.Tree.Nodes

namespace DeductiveParsing.Tree

/-! ### Frontiers -/

mutual

/-- The labels of the leaves in order. Leaves for the empty string do not count, and a foot is a
hole. -/
def frontier : Tree → List (Option String)
  | ⟨label, foot, []⟩ =>
    if foot then [none] else if label = epsilon ∨ label = "" then [] else [some label]
  | ⟨_, _, c :: cs⟩ => frontierAmong (c :: cs)

/-- The frontiers of a sequence of trees, one behind the other. -/
def frontierAmong : List Tree → List (Option String)
  | [] => []
  | c :: cs => c.frontier ++ frontierAmong cs

end

variable {t u v : Tree}

lemma frontierAmong_eq_flatMap (cs : List Tree) : frontierAmong cs = cs.flatMap frontier := by
  induction cs with
  | nil => rw [frontierAmong, List.flatMap_nil]
  | cons c cs ih => rw [frontierAmong, ih, List.flatMap_cons]

/-- The frontier of an inner node consists of those of the children. -/
lemma frontier_of_children (h : t.children ≠ []) : t.frontier = t.children.flatMap frontier := by
  obtain ⟨label, foot, cs⟩ := t
  cases cs with
  | nil => exact absurd rfl h
  | cons c cs => rw [frontier, frontierAmong_eq_flatMap]

lemma frontier_of_foot (hleaf : t.children = []) (hfoot : t.foot = true) :
    t.frontier = [none] := by
  obtain ⟨label, foot, cs⟩ := t
  obtain rfl : cs = [] := hleaf
  obtain rfl : foot = true := hfoot
  rw [frontier, if_pos rfl]

lemma isLeaf_iff : t.isLeaf = true ↔ t.children = [] := by
  rw [isLeaf, List.isEmpty_iff]

lemma isEpsilon_iff :
    t.isEpsilon = true ↔ t.children = [] ∧ (t.label = epsilon ∨ t.label = "") := by
  simp [isEpsilon, isLeaf_iff]

lemma frontier_of_isEpsilon (h : t.isEpsilon = true) (hfoot : t.foot = false) :
    t.frontier = [] := by
  obtain ⟨label, foot, cs⟩ := t
  obtain ⟨hleaf, hlabel⟩ := isEpsilon_iff.1 h
  obtain rfl : cs = [] := hleaf
  obtain rfl : foot = false := hfoot
  rw [frontier, if_neg Bool.false_ne_true, if_pos hlabel]

lemma frontier_of_label (hleaf : t.children = []) (hfoot : t.foot = false)
    (h : t.isEpsilon = false) : t.frontier = [some t.label] := by
  have hlabel : ¬(t.label = epsilon ∨ t.label = "") := by
    intro hlabel
    rw [isEpsilon_iff.2 ⟨hleaf, hlabel⟩] at h
    cases h
  obtain ⟨label, foot, cs⟩ := t
  obtain rfl : cs = [] := hleaf
  obtain rfl : foot = false := hfoot
  rw [frontier, if_neg Bool.false_ne_true, if_neg hlabel]

/-- The frontier of a subtree is a part of the frontier. -/
lemma frontier_sublist_of_subtreeOn? {path : List ℕ} (h : t.subtreeOn? path = some u) :
    u.frontier.Sublist t.frontier := by
  induction path generalizing t with
  | nil =>
      rw [subtreeOn?, Option.some.injEq] at h
      rw [h]
  | cons n path ih =>
      cases n with
      | zero => simp [subtreeOn?] at h
      | succ n =>
          rw [subtreeOn?_succ] at h
          obtain ⟨c, hc, hu⟩ := Option.bind_eq_some_iff.1 h
          have hmem : c ∈ t.children := List.mem_of_getElem? hc
          rw [frontier_of_children (List.ne_nil_of_mem hmem), List.flatMap_def]
          exact (ih hu).trans (List.sublist_flatten_of_mem (List.mem_map_of_mem hmem))

lemma frontier_sublist_of_mem_nodes (h : u ∈ t.nodes.map Prod.snd) :
    u.frontier.Sublist t.frontier := by
  obtain ⟨⟨a, u⟩, hnode, rfl⟩ := List.mem_map.1 h
  exact frontier_sublist_of_subtreeOn? (mem_nodes.1 hnode)

lemma frontier_sublist_of_mem_children (h : u ∈ t.children) : u.frontier.Sublist t.frontier :=
  frontier_sublist_of_mem_nodes
    (mem_map_snd_nodes.2 (Or.inr ⟨u, h, mem_map_snd_nodes.2 (Or.inl rfl)⟩))

/-! ### Labels of leaves -/

/-- The labels of the leaves from left to right. -/
def leafLabels (t : Tree) : List String := ((t.nodes.map Prod.snd).filter isLeaf).map Tree.label

lemma leafLabels_of_leaf (h : t.children = []) : t.leafLabels = [t.label] := by
  rw [leafLabels, map_snd_nodes, h, List.flatMap_nil, List.filter_cons_of_pos (isLeaf_iff.2 h)]
  rfl

/-- The leaves of an inner node are those of its children. -/
lemma leafLabels_of_children (h : t.children ≠ []) :
    t.leafLabels = t.children.flatMap leafLabels := by
  have hinner : ¬t.isLeaf = true := fun hleaf => h (isLeaf_iff.1 hleaf)
  rw [leafLabels, map_snd_nodes, List.filter_cons_of_neg hinner, List.filter_flatMap,
    List.map_flatMap]
  rfl

/-! ### Feet -/

mutual

/-- The tree with `v` in the place of every foot without children. An auxiliary tree has one. -/
def atFoot (v : Tree) : Tree → Tree
  | ⟨label, foot, []⟩ => if foot then v else ⟨label, foot, []⟩
  | ⟨label, foot, c :: cs⟩ => ⟨label, foot, atFootAmong v (c :: cs)⟩

/-- The same for each tree of a sequence. -/
def atFootAmong (v : Tree) : List Tree → List Tree
  | [] => []
  | c :: cs => atFoot v c :: atFootAmong v cs

end

/-- What stands in a place of a frontier once the holes are filled. -/
def fillHole (filling : List (Option String)) (leaf : Option String) : List (Option String) :=
  match leaf with
  | none => filling
  | some label => [some label]

lemma atFootAmong_eq_map (v : Tree) (cs : List Tree) : atFootAmong v cs = cs.map (atFoot v) := by
  induction cs with
  | nil => rw [atFootAmong, List.map_nil]
  | cons c cs ih => rw [atFootAmong, ih, List.map_cons]

lemma atFoot_of_children (v : Tree) (h : t.children ≠ []) :
    atFoot v t = { t with children := t.children.map (atFoot v) } := by
  obtain ⟨label, foot, cs⟩ := t
  cases cs with
  | nil => exact absurd rfl h
  | cons c cs => rw [atFoot, atFootAmong_eq_map]

lemma atFoot_of_foot (v : Tree) (hleaf : t.children = []) (hfoot : t.foot = true) :
    atFoot v t = v := by
  obtain ⟨label, foot, cs⟩ := t
  obtain rfl : cs = [] := hleaf
  obtain rfl : foot = true := hfoot
  rw [atFoot, if_pos rfl]

lemma atFoot_of_leaf (v : Tree) (hleaf : t.children = []) (hfoot : t.foot = false) :
    atFoot v t = t := by
  obtain ⟨label, foot, cs⟩ := t
  obtain rfl : cs = [] := hleaf
  obtain rfl : foot = false := hfoot
  rw [atFoot, if_neg Bool.false_ne_true]

/-- A tree at the foot leaves the label as it is, if it has the same one. -/
lemma label_atFoot (h : v.label = t.label) : (atFoot v t).label = t.label := by
  by_cases hleaf : t.children = []
  · cases hfoot : t.foot with
    | true => rw [atFoot_of_foot v hleaf hfoot, h]
    | false => rw [atFoot_of_leaf v hleaf hfoot]
  · rw [atFoot_of_children v hleaf]

/-- The frontier with a tree at the foot is the frontier with that tree's in the hole. -/
theorem frontier_atFoot (v t : Tree) :
    (atFoot v t).frontier = t.frontier.flatMap (fillHole v.frontier) := by
  induction t using ind with
  | h label foot children ih =>
      by_cases hleaf : children = []
      · subst hleaf
        cases foot with
        | true => simp [atFoot, frontier, fillHole]
        | false =>
            rw [atFoot_of_leaf v rfl rfl, frontier, if_neg Bool.false_ne_true]
            split <;> simp [fillHole]
      · have hmap : children.map (atFoot v) ≠ [] := by simpa using hleaf
        rw [atFoot_of_children v (t := ⟨label, foot, children⟩) hleaf,
          frontier_of_children (t := ⟨label, foot, children.map (atFoot v)⟩) hmap,
          frontier_of_children (t := ⟨label, foot, children⟩) hleaf, List.flatMap_assoc,
          List.flatMap_map]
        exact List.flatMap_congr ih

lemma count_none_flatMap_fillHole (filling leaves : List (Option String)) :
    (leaves.flatMap (fillHole filling)).count none = leaves.count none * filling.count none := by
  induction leaves with
  | nil => simp
  | cons leaf leaves ih =>
      rw [List.flatMap_cons, List.count_append, ih]
      cases leaf with
      | none => simp [fillHole, Nat.add_mul, Nat.add_comm]
      | some label => simp [fillHole]

/-- A frontier has as many holes as the tree has feet without children. -/
theorem count_none_frontier (t : Tree) :
    t.frontier.count none =
      ((t.nodes.map Prod.snd).filter fun u => u.foot && u.isLeaf).length := by
  induction t using ind with
  | h label foot children ih =>
      rw [map_snd_nodes]
      by_cases hleaf : children = []
      · subst hleaf
        cases foot with
        | true => simp [frontier, isLeaf]
        | false =>
            rw [frontier, if_neg Bool.false_ne_true]
            split <;> simp
      · rw [frontier_of_children (t := ⟨label, foot, children⟩) hleaf, List.count_flatMap,
          List.filter_cons_of_neg (by simp [isLeaf, hleaf]), List.filter_flatMap,
          List.length_flatMap]
        exact congrArg List.sum (List.map_congr_left ih)

end DeductiveParsing.Tree
