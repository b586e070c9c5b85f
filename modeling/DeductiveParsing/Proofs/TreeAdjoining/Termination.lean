/-
Runs of parsing with trees from the bottom up come to an end, whatever the trees are.

* `TreeCyk.IsNode`: nodes of elementary trees, several of which may have one name;
* `TreeCyk.IsBounded`: the items are about such nodes, and spans and gaps within the input;
* `TreeCyk.exists_isBounded_of_fire`: rules lead to nothing else;
* `TreeCyk.boundsOfAny`: so there are finitely many.
-/
import DeductiveParsing.Proofs.TreeAdjoining.Cyk

namespace DeductiveParsing.TreeCyk

open TreeAdjoining

variable {W : Type} {g : Grammar} {tokens : List String} {tree : String} {a : Address}
  {s r : NodeSpan} {schema : Schema W}

/-! ### Nodes -/

/-- Whether an elementary tree of a name has a node at an address. -/
def IsNode (g : Grammar) (tree : String) (a : Address) : Prop :=
  ∃ t u, (tree, t) ∈ g.trees ∧ (a, u) ∈ t.nodes

lemma isNode_of_node? {u : Tree} (h : g.node? tree a = some u) : IsNode g tree a := by
  obtain ⟨t, ht, hu⟩ := Grammar.node?_eq_some_iff.1 h
  exact ⟨t, u, Grammar.mem_trees_of_tree? ht, Tree.mem_nodes.2 hu⟩

/-- Above a node that is not the root there is one. -/
lemma IsNode.parent {n : ℕ} (h : IsNode g tree (a.child n)) : IsNode g tree a := by
  obtain ⟨t, u, ht, hu⟩ := h
  obtain ⟨-, v, -, hv, -⟩ := Tree.exists_parent_of_subtreeAt?_child (Tree.mem_nodes.1 hu)
  exact ⟨t, v, ht, Tree.mem_nodes.2 hv⟩

lemma finite_isNode (g : Grammar) : {q : String × Address | IsNode g q.1 q.2}.Finite := by
  refine (List.finite_toSet (g.trees.flatMap fun named =>
    named.2.nodes.map fun node => (named.1, node.1))).subset ?_
  rintro ⟨tree, a⟩ ⟨t, u, ht, hu⟩
  exact List.mem_flatMap.2 ⟨(tree, t), ht, List.mem_map.2 ⟨(a, u), hu, rfl⟩⟩

/-! ### Spans of nodes -/

/-- Whether an item is about a node of an elementary tree, and a span and a gap within the input. -/
structure IsBounded (g : Grammar) (tokens : List String) (s : NodeSpan) : Prop where
  isNode : IsNode g s.tree s.node
  start_le : s.start ≤ tokens.length
  stop_le : s.stop ≤ tokens.length
  gap_le : (∀ k, s.gap.start = some k → k ≤ tokens.length) ∧
    ∀ k, s.gap.stop = some k → k ≤ tokens.length

/-- There are finitely many such items. -/
lemma finite_isBounded (g : Grammar) (tokens : List String) : {s | IsBounded g tokens s}.Finite := by
  have hplaces := Set.finite_le_nat tokens.length
  refine (((finite_isNode g).prod (Set.finite_univ.prod (hplaces.prod
    ((Gap.finite_le tokens.length).prod hplaces)))).image
    fun (node, settled, start, gap, stop) =>
      NodeSpan.mk node.1 node.2 settled start gap stop).subset ?_
  intro s hs
  exact ⟨((s.tree, s.node), s.settled, s.start, s.gap, s.stop),
    ⟨hs.isNode, Set.mem_univ _, hs.start_le, hs.gap_le, hs.stop_le⟩, rfl⟩

/-- No node of a grammar with a schema has more than two children. -/
lemma isBinary_of_schema (hschema : Schema.treeCyk g tokens = .ok schema) : g.IsBinary := by
  rw [Schema.treeCyk] at hschema
  split at hschema
  next => cases hschema
  next hnone => exact Grammar.unbinarized?_eq_none_iff.1 hnone

/-- The axioms are about leaves. -/
lemma exists_isBounded_of_axiom (hbinary : g.IsBinary)
    (hschema : Schema.treeCyk g tokens = .ok schema) {x : Item W}
    (hx : ∃ b ∈ schema.axioms, x ∈ b.items) : ∃ s, x = s.toItem ∧ IsBounded g tokens s := by
  have habsent : (∀ k, Gap.absent.start = some k → k ≤ tokens.length) ∧
      ∀ k, Gap.absent.stop = some k → k ≤ tokens.length := ⟨nofun, nofun⟩
  rcases (mem_axioms hbinary hschema).1 hx with
    ⟨name, tree, htree, node, t, ht, hx⟩ | ⟨⟨name, tree⟩, hmem, hx⟩
  · obtain ⟨-, ⟨-, i, hi, rfl⟩ | ⟨-, -, i, hi, rfl⟩⟩ := mem_leafAxioms.1 hx
    · exact ⟨_, rfl, ⟨tree, t, htree, ht⟩, hi, hi, habsent⟩
    · have hlt : i < tokens.length := (List.getElem?_eq_some_iff.1 hi).1
      exact ⟨_, rfl, ⟨tree, t, htree, ht⟩, hlt.le, hlt, habsent⟩
  · obtain ⟨foot, i, j, hfoot, hij, hj, rfl⟩ := mem_footAxioms.1 hx
    obtain ⟨u, hu, -⟩ := Tree.exists_of_find? hfoot
    have hi := hij.trans hj
    exact ⟨_, rfl, ⟨tree, u, List.mem_append_right _ hmem, Tree.mem_nodes.2 hu⟩, hi, hj,
      by rintro _ ⟨⟩; exact hi, by rintro _ ⟨⟩; exact hj⟩

lemma rule_cases (hbinary : g.IsBinary) (hschema : Schema.treeCyk g tokens = .ok schema)
    {rule : Rule W} (hrule : rule ∈ schema.rules) :
    rule = .treeCyk (.moveUnary g) ∨ rule = .treeCyk (.moveBinary g) ∨ rule = .treeCyk .nullAdjoin ∨
      (∃ tree node, rule = .treeCyk (.substitute g tree node)) ∨ rule = .treeCyk (.adjoin g) := by
  rw [schema_eq hbinary hschema] at hrule
  simp only [Schema.make, List.cons_append, List.nil_append, List.mem_cons, List.mem_append,
    List.mem_map, List.not_mem_nil, or_false] at hrule
  rcases hrule with h | h | h | ⟨⟨tree, node⟩, -, h⟩ | h
  · exact Or.inl h
  · exact Or.inr (Or.inl h)
  · exact Or.inr (Or.inr (Or.inl h))
  · exact Or.inr (Or.inr (Or.inr (Or.inl ⟨tree, node, h.symm⟩)))
  · exact Or.inr (Or.inr (Or.inr (Or.inr h)))

/-- The span of two children is bounded if theirs are. -/
lemma isBounded_of_joinTwo {x y : Item W} {f : Firing W} (hx : x.form = s.form)
    (hy : y.form = r.form) (hs : IsBounded g tokens s) (hr : IsBounded g tokens r)
    (h : TreeCykRule.joinTwo g x y = some f) :
    ∃ q, f.items = [q.toItem] ∧ IsBounded g tokens q := by
  obtain ⟨p, gap, hnode, -, -, -, -, -, hgap, hitems⟩ := joinTwo_eq_some hx hy h
  have hle : (∀ k, gap.start = some k → k ≤ tokens.length) ∧
      ∀ k, gap.stop = some k → k ≤ tokens.length := by
    rcases Gap.join?_eq_some.1 hgap with ⟨-, rfl⟩ | ⟨-, rfl⟩
    · exact hr.gap_le
    · exact hs.gap_le
  exact ⟨_, hitems, (hnode ▸ hs.isNode).parent, hs.start_le, hr.stop_le, hle⟩

/-- The span of a node with a tree around it is bounded if those of the node and the tree are. -/
lemma isBounded_of_wrap {x y : Item W} {f : Firing W} (hx : x.form = s.form) (hy : y.form = r.form)
    (hs : IsBounded g tokens s) (hr : IsBounded g tokens r)
    (h : TreeCykRule.wrap g x y = some f) : ∃ q, f.items = [q.toItem] ∧ IsBounded g tokens q := by
  obtain ⟨-, -, -, -, -, -, -, -, -, hitems⟩ := wrap_eq_some hx hy h
  exact ⟨_, hitems, hr.isNode, hs.start_le, hs.stop_le, hr.gap_le⟩

variable [Weight W]

/-- Rules lead from bounded spans to bounded spans. -/
lemma exists_isBounded_of_fire (hbinary : g.IsBinary)
    (hschema : Schema.treeCyk g tokens = .ok schema) {rule : Rule W} (hrule : rule ∈ schema.rules)
    {xs : List (Item W)} {f : Firing W}
    (hxs : ∀ x ∈ xs, ∃ s, x.form = NodeSpan.form s ∧ IsBounded g tokens s)
    (hf : rule.fire? xs = some f) : ∃ s, f.items = [s.toItem] ∧ IsBounded g tokens s := by
  obtain ⟨hlen, hf⟩ := Rule.fire?_eq_some.1 hf
  rcases rule_cases hbinary hschema hrule with rfl | rfl | rfl | ⟨tree, node, rfl⟩ | rfl
  · obtain ⟨x, rfl⟩ := List.length_eq_one_iff.1 hlen
    obtain ⟨s, hx, hs⟩ := hxs x List.mem_cons_self
    obtain ⟨p, hnode, -, -, hitems⟩ := joinOnly_eq_some hx hf
    exact ⟨_, hitems, (hnode ▸ hs.isNode).parent, hs.start_le, hs.stop_le, hs.gap_le⟩
  · obtain ⟨x, y, rfl⟩ := List.length_eq_two.1 hlen
    obtain ⟨s, hx, hs⟩ := hxs x (by simp)
    obtain ⟨r, hy, hr⟩ := hxs y (by simp)
    rcases Firing.eq_some_of_eitherOrder? hf with hf | hf
    · exact isBounded_of_joinTwo hx hy hs hr hf
    · exact isBounded_of_joinTwo hy hx hr hs hf
  · obtain ⟨x, rfl⟩ := List.length_eq_one_iff.1 hlen
    obtain ⟨s, hx, hs⟩ := hxs x List.mem_cons_self
    obtain ⟨-, hitems⟩ := nullAdjoin_eq_some hx hf
    exact ⟨_, hitems, hs.isNode, hs.start_le, hs.stop_le, hs.gap_le⟩
  · obtain ⟨x, rfl⟩ := List.length_eq_one_iff.1 hlen
    obtain ⟨s, hx, hs⟩ := hxs x List.mem_cons_self
    obtain ⟨target, -, htarget, -, -, -, -, -, hitems⟩ := fillNode_eq_some hx hf
    exact ⟨_, hitems, isNode_of_node? htarget, hs.start_le, hs.stop_le, nofun, nofun⟩
  · obtain ⟨x, y, rfl⟩ := List.length_eq_two.1 hlen
    obtain ⟨s, hx, hs⟩ := hxs x (by simp)
    obtain ⟨r, hy, hr⟩ := hxs y (by simp)
    rcases Firing.eq_some_of_eitherOrder? hf with hf | hf
    · exact isBounded_of_wrap hx hy hs hr hf
    · exact isBounded_of_wrap hy hx hr hs hf

/-- Bounds for a run, whatever the trees are. -/
noncomputable def boundsOfAny (hschema : Schema.treeCyk g tokens = .ok schema) : schema.Bounds :=
  .ofForms ((finite_isBounded g tokens).image NodeSpan.form)
    (fun b hb x hx => by
      obtain ⟨s, rfl, hs⟩ := exists_isBounded_of_axiom (isBinary_of_schema hschema) hschema ⟨b, hb, hx⟩
      exact ⟨⟨s, hs, rfl⟩, rfl⟩)
    fun rule hrule xs f hxs hf y hy => by
      have hspans : ∀ x ∈ xs, ∃ s, x.form = NodeSpan.form s ∧ IsBounded g tokens s := fun x hx => by
        obtain ⟨s, hs, hform⟩ := hxs x hx
        exact ⟨s, hform.symm, hs⟩
      obtain ⟨s, hitems, hs⟩ :=
        exists_isBounded_of_fire (isBinary_of_schema hschema) hschema hrule hspans hf
      rw [hitems, List.mem_singleton] at hy
      subst hy
      exact ⟨⟨s, hs, rfl⟩, rfl⟩

end DeductiveParsing.TreeCyk
