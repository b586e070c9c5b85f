/-
Nodes of elementary trees.

* `Grammar.node?_child`: from a node to a child;
* `Grammar.isSubstitutionNode_iff`, `Grammar.isAdjoinable_iff`: what the two tests look for;
* `Grammar.mem_substitutionNodes`, `Grammar.mem_adjunctionSites`: all such nodes are listed;
* `IsWellFormed.foot?_eq_some_iff`: an auxiliary tree has no other foot than the one that is found.
-/
import DeductiveParsing.Proofs.GrammarFile.Feet
import DeductiveParsing.Proofs.TreeAdjoining.Derivation

namespace DeductiveParsing.TreeAdjoining.Grammar

variable {g : Grammar} {name aux : String} {a : Address} {t : Tree}

/-! ### Navigation -/

@[simp] lemma node?_root (g : Grammar) (name : String) : g.node? name .root = g.tree? name := by
  rw [node?]
  cases g.tree? name <;> simp

lemma node?_child (g : Grammar) (name : String) (a : Address) (n : ℕ) :
    g.node? name (a.child (n + 1)) = (g.node? name a).bind fun t => t.children[n]? := by
  rw [node?, node?]
  cases g.tree? name with
  | none => rfl
  | some t => exact t.subtreeAt?_child a n

lemma node?_eq_some_iff :
    g.node? name a = some t ↔ ∃ tree, g.tree? name = some tree ∧ tree.subtreeAt? a = some t :=
  Option.bind_eq_some_iff

/-- A child belongs to a node. -/
lemma exists_parent_of_node?_child {n : ℕ} (h : g.node? name (a.child n) = some t) :
    ∃ k parent, n = k + 1 ∧ g.node? name a = some parent ∧ parent.children[k]? = some t := by
  obtain ⟨tree, htree, h⟩ := node?_eq_some_iff.1 h
  obtain ⟨k, parent, rfl, hparent, ht⟩ := Tree.exists_parent_of_subtreeAt?_child h
  exact ⟨k, parent, rfl, node?_eq_some_iff.2 ⟨tree, htree, hparent⟩, ht⟩

/-- Where a node has no child of some place, it has none of a later place. -/
lemma length_children_le {n : ℕ} (h : g.node? name a = some t)
    (hnone : g.node? name (a.child (n + 1)) = none) : t.children.length ≤ n := by
  rw [node?_child, h] at hnone
  exact List.getElem?_eq_none_iff.1 hnone

/-- Whether no node of an elementary tree has more than two children. -/
def IsBinary (g : Grammar) : Prop :=
  ∀ named ∈ g.trees, ∀ node ∈ named.2.nodes, node.2.children.length ≤ 2

instance (g : Grammar) : Decidable g.IsBinary :=
  inferInstanceAs (Decidable (∀ named ∈ g.trees, ∀ node ∈ named.2.nodes, _))

lemma unbinarized?_eq_none_iff : g.unbinarized? = none ↔ g.IsBinary := by
  rw [unbinarized?, Option.map_eq_none_iff, List.find?_eq_none]
  refine forall₂_congr fun named _ => ?_
  simp

/-! ### Elder siblings -/

/-- The siblings before a node. -/
def elders (g : Grammar) (name : String) (a : Address) : List Tree :=
  match a.parent?, a.place? with
  | some p, some n => ((g.node? name p).map fun t => t.children.take (n - 1)).getD []
  | _, _ => []

lemma elders_root (g : Grammar) (name : String) : g.elders name .root = [] := rfl

lemma elders_child {n : ℕ} (h : g.node? name a = some t) :
    g.elders name (a.child (n + 1)) = t.children.take n := by
  simp [elders, h]

/-- With a node there is one sibling more before the next one. -/
lemma elders_sibling {n : ℕ} (ht : g.node? name (a.child n) = some t) :
    g.elders name (a.child (n + 1)) = g.elders name (a.child n) ++ [t] := by
  obtain ⟨k, parent, rfl, hparent, hchild⟩ := exists_parent_of_node?_child ht
  obtain ⟨hlt, rfl⟩ := List.getElem?_eq_some_iff.1 hchild
  rw [elders_child hparent, elders_child hparent, List.take_succ_eq_append_getElem hlt]

/-- The siblings before a last child and that child are all children of the node above. -/
lemma exists_parent_of_last_child {n : ℕ} (ht : g.node? name (a.child n) = some t)
    (hnone : g.node? name (a.child (n + 1)) = none) :
    ∃ parent, g.node? name a = some parent ∧
      parent.children = g.elders name (a.child n) ++ [t] := by
  obtain ⟨k, parent, rfl, hparent, hchild⟩ := exists_parent_of_node?_child ht
  have hlength := length_children_le hparent hnone
  refine ⟨parent, hparent, ?_⟩
  rw [← elders_sibling ht, elders_child hparent, List.take_of_length_le hlength]

/-- The parent of an only child. -/
lemma exists_parent_of_only_child (ht : g.node? name (a.child 1) = some t)
    (hnone : g.node? name (a.child 2) = none) :
    ∃ parent, g.node? name a = some parent ∧ parent.children = [t] := by
  obtain ⟨parent, hparent, hchildren⟩ := exists_parent_of_last_child ht hnone
  refine ⟨parent, hparent, ?_⟩
  rw [hchildren, show (1 : ℕ) = 0 + 1 from rfl, elders_child hparent]
  rfl

/-! ### Sites -/

lemma isSubstitutionNode_iff :
    g.isSubstitutionNode name a = true ↔ ∃ t, g.node? name a = some t ∧ g.IsSite t := by
  rw [isSubstitutionNode]
  cases g.node? name a with
  | none => simp
  | some t => simp [IsSite, isNonterminal, Tree.isLeaf_iff, and_assoc]

lemma isAdjoinable_iff :
    g.isAdjoinable aux name a = true ↔ ∃ beta t, g.auxiliary.lookup aux = some beta ∧
      g.node? name a = some t ∧ t.children ≠ [] ∧ t.label = beta.label := by
  rw [isAdjoinable]
  cases g.auxiliary.lookup aux with
  | none => simp
  | some beta =>
      cases g.node? name a with
      | none => simp
      | some t => simp [Tree.isLeaf]

/-- A selection of nodes of elementary trees lists all nodes with the property. -/
lemma mem_selected {p : String → Address → Bool}
    (hp : p name a = true → ∃ t, g.node? name a = some t) :
    (name, a) ∈ (g.trees.flatMap fun (name, t) =>
        (t.nodes.filter fun (a, _) => p name a).map fun (a, _) => (name, a)) ↔
      p name a = true := by
  simp only [List.mem_flatMap, List.mem_map, List.mem_filter, Prod.mk.injEq, Prod.exists]
  constructor
  · rintro ⟨_, tree, -, _, u, ⟨-, hpa⟩, rfl, rfl⟩
    exact hpa
  · intro hpa
    obtain ⟨t, ht⟩ := hp hpa
    obtain ⟨tree, htree, ht⟩ := node?_eq_some_iff.1 ht
    exact ⟨name, tree, mem_trees_of_tree? htree, a, t, ⟨Tree.mem_nodes.2 ht, hpa⟩, rfl, rfl⟩

lemma mem_substitutionNodes :
    (name, a) ∈ g.substitutionNodes ↔ g.isSubstitutionNode name a = true :=
  mem_selected (p := g.isSubstitutionNode) fun hsite => by
    obtain ⟨t, ht, -⟩ := isSubstitutionNode_iff.1 hsite
    exact ⟨t, ht⟩

lemma mem_adjunctionSites :
    (name, a) ∈ g.adjunctionSites aux ↔ g.isAdjoinable aux name a = true :=
  mem_selected (p := g.isAdjoinable aux) fun hsite => by
    obtain ⟨_, t, -, ht, -⟩ := isAdjoinable_iff.1 hsite
    exact ⟨t, ht⟩

namespace IsWellFormed

/-- A node with an address is one of those that are listed. -/
lemma mem_nodes_of_node? (h : g.IsWellFormed) (ht : g.node? name a = some t) :
    ∃ tree, (name, tree) ∈ g.trees ∧ (a, t) ∈ tree.nodes := by
  obtain ⟨tree, htree, ht⟩ := node?_eq_some_iff.1 ht
  exact ⟨tree, h.tree?_eq_some_iff.1 htree, Tree.mem_nodes.2 ht⟩

lemma isLeaf_of_foot (h : g.IsWellFormed) (hfeet : g.HasLeafFeet) (ht : g.node? name a = some t)
    (hfoot : t.foot = true) : t.children = [] := by
  obtain ⟨tree, htree, hmem⟩ := h.mem_nodes_of_node? ht
  exact Tree.isLeaf_iff.1 (hfeet _ htree _ hmem hfoot)

lemma length_children_le_two (h : g.IsWellFormed) (hbinary : g.IsBinary)
    (ht : g.node? name a = some t) : t.children.length ≤ 2 := by
  obtain ⟨tree, htree, hmem⟩ := h.mem_nodes_of_node? ht
  exact hbinary _ htree _ hmem

/-- A node that is no foot has a label. -/
lemma label_ne_empty (h : g.IsWellFormed) (ht : g.node? name a = some t) (hfoot : t.foot = false) :
    t.label ≠ "" := by
  obtain ⟨tree, htree, hmem⟩ := h.mem_nodes_of_node? ht
  exact h.isLabelled _ htree t (List.mem_map.2 ⟨(a, t), hmem, rfl⟩) hfoot

/-- The parent of two children. -/
lemma exists_parent_of_two_children (h : g.IsWellFormed) (hbinary : g.IsBinary) {u : Tree}
    (ht : g.node? name (a.child 1) = some t) (hu : g.node? name (a.child 2) = some u) :
    ∃ parent, g.node? name a = some parent ∧ parent.children = [t, u] := by
  obtain ⟨k, parent, hk, hparent, hfirst⟩ := exists_parent_of_node?_child ht
  obtain rfl : k = 0 := by omega
  refine ⟨parent, hparent, ?_⟩
  have hlength := h.length_children_le_two hbinary hparent
  rw [show (2 : ℕ) = 1 + 1 from rfl, node?_child, hparent, Option.bind_some] at hu
  match parent.children, hlength, hfirst, hu with
  | [c, d], _, hfirst, hu => rw [Option.some.inj hfirst, Option.some.inj hu]

/-- There are finitely many nodes. -/
lemma finite_nodes (h : g.IsWellFormed) :
    {node : String × Address | ∃ t, g.node? node.1 node.2 = some t}.Finite := by
  refine (List.finite_toSet (g.trees.flatMap fun named =>
    named.2.nodes.map fun node => (named.1, node.1))).subset ?_
  rintro ⟨name, a⟩ ⟨t, ht⟩
  obtain ⟨tree, htree, hmem⟩ := h.mem_nodes_of_node? ht
  exact List.mem_flatMap.2 ⟨(name, tree), htree, List.mem_map.2 ⟨(a, t), hmem, rfl⟩⟩

/-! ### Feet -/

/-- There is at most one hole below a node of an elementary tree. -/
lemma count_none_node?_le_one (h : g.IsWellFormed) (hfeet : g.HasLeafFeet)
    (ht : g.node? name a = some t) : t.frontier.count none ≤ 1 := by
  obtain ⟨tree, htree, hsubtree⟩ := node?_eq_some_iff.1 ht
  have hsublist := Tree.frontier_sublist_of_subtreeOn? hsubtree
  exact (hsublist.count_le none).trans (h.count_none_le_one hfeet (h.tree?_eq_some_iff.1 htree))

/-- There is at most one hole below a node and its elder siblings. -/
lemma count_none_elders_le_one (h : g.IsWellFormed) (hfeet : g.HasLeafFeet)
    (ht : g.node? name a = some t) :
    ((g.elders name a ++ [t]).flatMap Tree.frontier).count none ≤ 1 := by
  rcases Address.eq_root_or_child a with rfl | ⟨b, n, rfl⟩
  · rw [elders_root]
    simpa using h.count_none_node?_le_one hfeet ht
  · obtain ⟨k, parent, rfl, hparent, hchild⟩ := exists_parent_of_node?_child ht
    have hmem : t ∈ parent.children := List.mem_of_getElem? hchild
    refine le_trans ?_ (h.count_none_node?_le_one hfeet hparent)
    rw [← elders_sibling ht, elders_child hparent,
      Tree.frontier_of_children (List.ne_nil_of_mem hmem), List.flatMap_def, List.flatMap_def]
    exact (((List.take_sublist _ _).map _).flatten).count_le none

/-- An auxiliary tree has no other foot than the one that is found, and other trees have none. -/
lemma foot?_eq_some_iff (h : g.IsWellFormed) :
    g.foot? name = some a ↔ ∃ t, g.node? name a = some t ∧ t.foot = true := by
  constructor
  · intro hfoot
    obtain ⟨beta, hbeta, hfoot⟩ := Option.bind_eq_some_iff.1 hfoot
    obtain ⟨t, ht, htfoot⟩ := Tree.exists_of_find? hfoot
    have htree := (h.tree?_of_auxiliary (mem_of_lookup_eq_some hbeta)).2
    exact ⟨t, node?_eq_some_iff.2 ⟨beta, htree, ht⟩, htfoot⟩
  · rintro ⟨t, ht, hfoot⟩
    obtain ⟨tree, hmem, hnode⟩ := h.mem_nodes_of_node? ht
    have hsubtree := Tree.mem_nodes.1 hnode
    rcases List.mem_append.1 hmem with hmem | hmem
    · rw [Tree.not_foot_of_feet (h.feet_initial _ hmem) hsubtree] at hfoot
      cases hfoot
    · obtain ⟨foot, hfeet, hlabel⟩ := h.feet_auxiliary _ hmem
      obtain ⟨f, hf⟩ := Tree.exists_hasFoot hfeet hlabel
      rw [foot?, (h.tree?_of_auxiliary hmem).1, hf.eq a t hsubtree hfoot]
      exact hf.footAddress?_eq

end IsWellFormed

end DeductiveParsing.TreeAdjoining.Grammar
