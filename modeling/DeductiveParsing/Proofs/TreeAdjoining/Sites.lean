/-
The nodes of elementary trees in reading order, and the sites among them.

* `SitePrecedes`, `pairwise_selected`: selected nodes are listed tree after tree, and those of one
  tree in reading order;
* `find?_selected`: the first node that is selected under a name;
* `ListsSites`, `listsSites_substitutionNodes`: all substitution nodes are listed in this order, and
  the first one under a name is the first one of the tree with that name;
* `nodes_exact`: nodes, their addresses, and what is found first.
-/
import DeductiveParsing.Proofs.Tree.ReadingOrder
import DeductiveParsing.Proofs.TreeAdjoining.Nodes

namespace DeductiveParsing.TreeAdjoining

namespace Grammar

variable {g : Grammar} {name : String} {a b : Address} {t u : Tree} {trees : NamedTrees}

/-! ### The order of selected nodes -/

/-- Whether a node of one elementary tree comes before a node of another or the same one: the tree
comes before the other tree, or the node before the other node of that tree in reading order. -/
def SitePrecedes (trees : NamedTrees) (x y : String × Address) : Prop :=
  [x.1, y.1].Sublist (trees.map Prod.fst) ∨ x.1 = y.1 ∧ x.2.Precedes y.2

/-- The selected nodes of one tree are listed in reading order. -/
lemma pairwise_selected_nodes (q : Address → Bool) (name : String) (t : Tree) :
    ((t.nodes.filter fun (a, _) => q a).map fun (a, _) => (name, a)).Pairwise
      fun x y => x.1 = y.1 ∧ x.2.Precedes y.2 :=
  List.pairwise_map.2 ((t.pairwise_nodes.filter _).imp fun h => ⟨rfl, h⟩)

/-- Selected nodes are listed tree after tree. -/
lemma pairwise_selected (p : String → Address → Bool) (trees : NamedTrees) :
    (trees.flatMap fun (name, t) =>
        (t.nodes.filter fun (a, _) => p name a).map fun (a, _) => (name, a)).Pairwise
      (SitePrecedes trees) := by
  induction trees with
  | nil => exact .nil
  | cons named trees ih =>
      obtain ⟨name, t⟩ := named
      rw [List.flatMap_cons, List.pairwise_append]
      refine ⟨(pairwise_selected_nodes _ name t).imp Or.inr,
        ih.imp fun h => h.imp_left fun h => h.cons _, fun x hx y hy => Or.inl ?_⟩
      obtain ⟨⟨a, u⟩, -, rfl⟩ := List.mem_map.1 hx
      obtain ⟨⟨name', t'⟩, hnamed, hy⟩ := List.mem_flatMap.1 hy
      obtain ⟨⟨a', u'⟩, -, rfl⟩ := List.mem_map.1 hy
      have hname' : name' ∈ trees.map Prod.fst := List.mem_map_of_mem hnamed
      exact (List.singleton_sublist.2 hname').cons_cons name

/-! ### The first selected node -/

/-- Among the selected nodes of one tree, none is listed under another name. -/
lemma find?_selected_nodes (q : Address → Bool) (n : String) (t : Tree) :
    (((t.nodes.filter fun (a, _) => q a).map fun (a, _) => (n, a)).find?
      fun site => site.1 == name) =
        if n = name then (t.nodes.find? fun node => q node.1).map fun node => (n, node.1)
        else none := by
  rw [List.find?_map, List.find?_filter]
  split
  next hname => simp [hname]
  next hname => simp [hname]

/-- If a node of the tree with a name is selected, the first one that is listed under the name is
found among the nodes of that tree. -/
lemma find?_selected {p : String → Address → Bool} (ht : trees.lookup name = some t)
    (hsome : ∃ node ∈ t.nodes, p name node.1 = true) :
    ((trees.flatMap fun (name, t) =>
        (t.nodes.filter fun (a, _) => p name a).map fun (a, _) => (name, a)).find?
      fun site => site.1 == name) =
        (t.nodes.find? fun node => p name node.1).map fun node => (name, node.1) := by
  induction trees with
  | nil => cases ht
  | cons named trees ih =>
      obtain ⟨n, t'⟩ := named
      rw [List.flatMap_cons, List.find?_append, find?_selected_nodes]
      rw [List.lookup_cons] at ht
      split at ht
      next hname =>
        obtain rfl := Option.some.inj ht
        obtain rfl := beq_iff_eq.1 hname
        have hfind : (t'.nodes.find? fun node => p name node.1).isSome := List.find?_isSome.2 hsome
        rw [if_pos rfl, Option.or_of_isSome (by rwa [Option.isSome_map])]
      next hname => rw [if_neg (Ne.symm (by simpa using hname)), Option.none_or, ih ht]

/-! ### Substitution nodes -/

/-- If a tree has a substitution node, the first one is listed first under the name of the tree. -/
lemma exists_isFirst_of_isSite (ht : g.tree? name = some t) (hu : t.subtreeAt? b = some u)
    (hsite : g.IsSite u) : ∃ a, t.IsFirst g.IsSite a ∧
      (g.substitutionNodes.find? fun site => site.1 == name) = some (name, a) := by
  have htest : ∀ b v, t.subtreeAt? b = some v →
      (g.isSubstitutionNode name b = true ↔ g.IsSite v) := by
    intro b v hv
    rw [isSubstitutionNode_iff, node?, ht, Option.bind_eq_bind, Option.bind_some, hv]
    simp
  have hsome : ∃ node ∈ t.nodes, g.isSubstitutionNode name node.1 = true :=
    ⟨(b, u), Tree.mem_nodes.2 hu, (htest b u hu).2 hsite⟩
  obtain ⟨node, hnode⟩ := Option.isSome_iff_exists.1 (List.find?_isSome.2 hsome)
  refine ⟨node.1, Tree.isFirst_of_find?_nodes htest hnode, ?_⟩
  rw [substitutionNodes, find?_selected (tree?_eq_lookup g name ▸ ht) hsome, hnode]
  rfl

/-- Whether all substitution nodes of a grammar are listed tree after tree and in reading order, so
that the first one under a name is the first one of the tree with that name. -/
structure ListsSites (g : Grammar) (sites : List (String × Address)) : Prop where
  mem_iff : ∀ name a, (name, a) ∈ sites ↔
    ∃ t u, g.tree? name = some t ∧ t.subtreeAt? a = some u ∧ g.IsSite u
  ordered : sites.Pairwise (SitePrecedes g.trees)
  find?_iff : ∀ name a, (sites.find? fun site => site.1 == name) = some (name, a) ↔
    ∃ t, g.tree? name = some t ∧ t.IsFirst g.IsSite a

lemma listsSites_substitutionNodes (g : Grammar) : g.ListsSites g.substitutionNodes where
  mem_iff name a := by
    rw [mem_substitutionNodes, isSubstitutionNode_iff]
    simp only [node?_eq_some_iff]
    constructor
    · rintro ⟨u, ⟨t, ht, hu⟩, hsite⟩
      exact ⟨t, u, ht, hu, hsite⟩
    · rintro ⟨t, u, ht, hu, hsite⟩
      exact ⟨u, ⟨t, ht, hu⟩, hsite⟩
  ordered := pairwise_selected _ _
  find?_iff name a := by
    constructor
    · intro h
      obtain ⟨u, hu, hsite⟩ :=
        isSubstitutionNode_iff.1 (mem_substitutionNodes.1 (List.mem_of_find?_eq_some h))
      obtain ⟨t, ht, hu⟩ := node?_eq_some_iff.1 hu
      obtain ⟨b, hfirst, hfind⟩ := exists_isFirst_of_isSite ht hu hsite
      obtain rfl : a = b := congrArg Prod.snd (Option.some.inj (h.symm.trans hfind))
      exact ⟨t, ht, hfirst⟩
    · rintro ⟨t, ht, hfirst⟩
      obtain ⟨u, hu, hsite⟩ := hfirst.exists_node
      obtain ⟨b, hfirst', hfind⟩ := exists_isFirst_of_isSite ht hu hsite
      rw [hfind, hfirst.unique hfirst']

end Grammar

/-! ### Nodes and their addresses -/

/-- The nodes of a tree are listed with their addresses, each once and in increasing order. Addresses
compare like their paths, which is reading order, and are read from their texts as long as all
places can be counted. The parent of a listed node is listed, and its next sibling is if the parent
has a further child. The foot, the leaf that is substituted and the substitution nodes of a grammar
are the first nodes with these properties. -/
theorem nodes_exact (t : Tree) (g : Grammar) :
    t.ListsNodes t.nodes ∧
      (∀ a b : Address, (compare a b = .lt ↔ a.path < b.path) ∧
        (compare a b = .lt ↔ a.Precedes b)) ∧
      (∀ a : Address,
        Address.read a.text = .ok a ↔ ∀ n ∈ a.path, 0 < n ∧ n < Text.indexBound) ∧
      ((∀ a u, (a, u) ∈ t.nodes → u.children.length < Text.indexBound) →
        ∀ a u, (a, u) ∈ t.nodes → Address.read a.text = .ok a) ∧
      (∀ a u, (a, u) ∈ t.nodes → a ≠ .root → ∃ p r v n, a.parent? = some p ∧
        a.rightSibling? = some r ∧ a.place? = some (n + 1) ∧ (p, v) ∈ t.nodes ∧
          v.children[n]? = some u ∧ ((∃ w, (r, w) ∈ t.nodes) ↔ n + 1 < v.children.length)) ∧
      (∀ P, (∃ a, t.IsFirst P a) ↔ ∃ a u, (a, u) ∈ t.nodes ∧ P u) ∧
      (∀ a, t.footAddress? = some a ↔ t.IsFirst (fun u => u.foot = true) a) ∧
      (∀ u a, t.IsFirst (fun v => v.isOpen = true ∧ v.label = u.label) a →
        ∃ t', t.replaceAt? a u = some t' ∧ t.substituteLeftmost? u = some t') ∧
      (∀ u, (¬∃ a v, (a, v) ∈ t.nodes ∧ v.isOpen = true ∧ v.label = u.label) →
        t.substituteLeftmost? u = none) ∧
      g.ListsSites g.substitutionNodes := by
  simp only [Tree.mem_nodes]
  exact ⟨t.listsNodes_nodes,
    fun a b => ⟨Address.compare_eq_lt_iff.trans Address.path_lt_path_iff.symm,
      Address.compare_eq_lt_iff⟩,
    fun a => Address.read_text_iff,
    fun hcount a u hu => Tree.read_text_of_subtreeAt? hcount hu,
    fun a u hu ha => Tree.exists_family hu ha,
    fun P => Tree.exists_isFirst_iff,
    fun a => Tree.find?_eq_some_iff_isFirst,
    fun u a h => Tree.exists_substituteLeftmost?_of_isFirst h,
    fun u h => Tree.substituteLeftmost?_eq_none h,
    g.listsSites_substitutionNodes⟩

/-- A tree with three open leaves, two of which have the same label, and a foot. -/
def bush : Tree :=
  .branch "S" [.branch "A" [.leaf "b", .leaf "B"], .leaf "B", .footLeaf "S"]

/-- A grammar in which that tree is the auxiliary one. -/
def bushGrammar : Grammar :=
  ⟨["S", "A", "B"], ["b"], "S", [("α", .branch "S" [.leaf "B"])], [("β", bush)]⟩

/-- In that tree, the second child of the first child has no next sibling, and it is the first leaf
at which a tree for its label can be substituted. -/
theorem nodes_exact_bush :
    (∀ a u, (a, u) ∈ bush.nodes → u.children.length < Text.indexBound) ∧
      (⟨[1, 2]⟩, Tree.leaf "B") ∈ bush.nodes ∧ Address.read "1.2" = .ok ⟨[1, 2]⟩ ∧
      (⟨[1]⟩, Tree.branch "A" [.leaf "b", .leaf "B"]) ∈ bush.nodes ∧
      (¬∃ w, (⟨[1, 3]⟩, w) ∈ bush.nodes) ∧
      bush.IsFirst (fun u => u.foot = true) ⟨[3]⟩ ∧
      (∃ t', bush.replaceAt? ⟨[1, 2]⟩ (.branch "B" [.leaf "b"]) = some t' ∧
        bush.substituteLeftmost? (.branch "B" [.leaf "b"]) = some t') ∧
      bush.substituteLeftmost? (.leaf "A") = none ∧
      bush.IsFirst bushGrammar.IsSite ⟨[1, 2]⟩ := by
  obtain ⟨-, -, -, hread, hfamily, -, hfoot, hsubstitute, hnone, hsites⟩ :=
    nodes_exact bush bushGrammar
  have hcount : ∀ node ∈ bush.nodes, node.2.children.length < Text.indexBound := by decide
  have hmem : (⟨[1, 2]⟩, Tree.leaf "B") ∈ bush.nodes := by decide
  -- the parent and the next sibling
  obtain ⟨p, r, v, n, hp, hr, hn, hv, -, hnext⟩ := hfamily _ _ hmem (by decide)
  obtain rfl : (⟨[1]⟩ : Address) = p := Option.some.inj hp
  obtain rfl : (⟨[1, 3]⟩ : Address) = r := Option.some.inj hr
  obtain rfl : 1 = n := Nat.succ.inj (Option.some.inj hn)
  obtain rfl : Tree.branch "A" [.leaf "b", .leaf "B"] = v :=
    Option.some.inj (Tree.mem_nodes.1 hv)
  -- the first sites
  obtain ⟨tree, htree, hfirst⟩ := (hsites.find?_iff "β" ⟨[1, 2]⟩).1 (by decide)
  obtain rfl : bush = tree := Option.some.inj htree
  have hfind : (bush.find? fun v => v.isOpen && v.label == "B") = some ⟨[1, 2]⟩ := by decide
  have hopen : bush.IsFirst (fun v => v.isOpen = true ∧ v.label = "B") ⟨[1, 2]⟩ := by
    simpa using Tree.isFirst_of_find? hfind
  have hclosed : ∀ node ∈ bush.nodes, ¬(node.2.isOpen = true ∧ node.2.label = "A") := by decide
  exact ⟨fun a u h => hcount (a, u) h, hmem,
    hread (fun a u h => hcount (a, u) h) _ _ hmem, hv, fun h => absurd (hnext.1 h) (by decide),
    (hfoot _).1 (by decide), hsubstitute (.branch "B" [.leaf "b"]) _ hopen,
    hnone _ fun ⟨a, v, hv, h⟩ => hclosed (a, v) hv h, hfirst⟩

end DeductiveParsing.TreeAdjoining
