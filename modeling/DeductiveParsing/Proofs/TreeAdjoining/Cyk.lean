/-
What parsing with trees from the bottom up finds.

* `TreeCyk.Spans`: what an item says about the grammar and the input;
* `TreeCyk.spans_of_fire`: no rule concludes anything else;
* `TreeCyk.mem_of_derives`: a closed set contains an item for every derived tree that reads a part
  of the input;
* `TreeCyk.treeCyk_isDerivable_exact`: a run ends, and something is derivable exactly if the grammar
  generates the input.
-/
import DeductiveParsing.Proofs.Deduction.Closure
import DeductiveParsing.Proofs.TreeAdjoining.Nodes
import DeductiveParsing.Proofs.TreeAdjoining.Reads
import DeductiveParsing.Schema.TreeAdjoining

namespace DeductiveParsing

open TreeAdjoining

variable {W : Type} {g : Grammar} {tokens : List String}

/-! ### Items -/

namespace NodeSpan

variable {s r : NodeSpan} {x : Item W}

/-- The form of the item that says so. -/
def form (s : NodeSpan) : Form :=
  [.symbol s.tree, .address s.node, .symbol (mark s.settled), .index s.start,
    .ofIndex? s.gap.start, .ofIndex? s.gap.stop, .index s.stop]

lemma form_toItem (s : NodeSpan) : (s.toItem : Item W).form = s.form := rfl

lemma trees_toItem (s : NodeSpan) : (s.toItem : Item W).trees = [] := rfl

/-- What an item says can be read off its form. -/
lemma ofItem?_of_form (h : x.form = s.form) : ofItem? x = some s := by
  obtain ⟨tree, node, settled, start, ⟨gapStart, gapStop⟩, stop⟩ := s
  cases settled <;> cases gapStart <;> cases gapStop <;>
    simp [ofItem?, Item.symbol?, Item.address?, Item.index?, Item.optionalIndex?, Item.field?, h,
      form, ofMark?, mark, Field.ofIndex?]

lemma ofItem?_ofForm (s : NodeSpan) : ofItem? (Item.ofForm s.form : Item W) = some s :=
  ofItem?_of_form rfl

lemma form_injective : Function.Injective form := fun s r h => by
  have hs := ofItem?_ofForm (W := Unit) s
  rw [h, ofItem?_ofForm, Option.some.injEq] at hs
  exact hs.symm

end NodeSpan

namespace TreeCyk

open TreeCykRule

/-! ### What the rules conclude -/

section Fire

variable {x y : Item W} {s r : NodeSpan} {f : Firing W}

lemma joinOnly_eq_some (hx : x.form = s.form) (h : joinOnly g x = some f) :
    ∃ p, s.node = p.child 1 ∧ s.settled = true ∧ g.node? s.tree (p.child 2) = none ∧
      f.items = [{ s with node := p, settled := false }.toItem] := by
  simp only [joinOnly, NodeSpan.ofItem?_of_form hx, Option.bind_eq_bind, Option.bind_some,
    Option.bind_eq_some_iff, Option.ite_none_right_eq_some] at h
  obtain ⟨p, hp, ⟨hsettled, hplace, hnone⟩, h⟩ := h
  obtain ⟨n, hn⟩ := Address.eq_child_of_parent? hp
  rw [hn, Address.place?_child, Option.some.injEq] at hplace
  exact ⟨p, by rw [hn, hplace], hsettled, hnone, by rw [← Option.some.inj h]⟩

lemma joinTwo_eq_some (hx : x.form = s.form) (hy : y.form = r.form)
    (h : joinTwo g x y = some f) :
    ∃ p gap, s.node = p.child 1 ∧ r.node = p.child 2 ∧ s.settled = true ∧ r.settled = true ∧
      s.tree = r.tree ∧ s.stop = r.start ∧ s.gap.join? r.gap = some gap ∧
      f.items = [{ s with node := p, settled := false, gap := gap, stop := r.stop }.toItem] := by
  simp only [joinTwo, NodeSpan.ofItem?_of_form hx, NodeSpan.ofItem?_of_form hy,
    Option.bind_eq_bind, Option.bind_some, Option.bind_eq_some_iff,
    Option.ite_none_right_eq_some] at h
  obtain ⟨gap, hgap, p, hp, ⟨hs, hr, htree, hplace, hsibling, hstop⟩, h⟩ := h
  obtain ⟨n, hn⟩ := Address.eq_child_of_parent? hp
  rw [hn, Address.place?_child, Option.some.injEq] at hplace
  rw [hn, hplace, Address.rightSibling?_child, Option.some.injEq] at hsibling
  exact ⟨p, gap, by rw [hn, hplace], hsibling.symm, hs, hr, htree, hstop, hgap,
    by rw [← Option.some.inj h]⟩

lemma wrap_eq_some (hx : x.form = s.form) (hy : y.form = r.form)
    (h : TreeCykRule.wrap g x y = some f) :
    ∃ k l, s.gap = ⟨some k, some l⟩ ∧ s.settled = true ∧ r.settled = false ∧ s.node = .root ∧
      g.isAdjoinable s.tree r.tree r.node = true ∧ r.start = k ∧ r.stop = l ∧
      f.items = [{ r with settled := true, start := s.start, stop := s.stop }.toItem] := by
  simp only [TreeCykRule.wrap, NodeSpan.ofItem?_of_form hx, NodeSpan.ofItem?_of_form hy,
    Option.bind_eq_bind, Option.bind_some, Option.bind_eq_some_iff,
    Option.ite_none_right_eq_some] at h
  obtain ⟨k, hk, l, hl, ⟨hs, hr, hroot, hadjoin, hstart, hstop⟩, h⟩ := h
  refine ⟨k, l, ?_, hs, hr, Address.isRoot_iff.1 hroot, hadjoin, hstart, hstop,
    by rw [← Option.some.inj h]⟩
  rw [← hk, ← hl]

lemma fillNode_eq_some {tree : String} {node : Address} (hx : x.form = s.form)
    (h : TreeCykRule.fillNode g tree node x = some f) :
    ∃ target source, g.node? tree node = some target ∧ g.tree? s.tree = some source ∧
      s.settled = true ∧ s.node = .root ∧ g.isInitial s.tree = true ∧
      source.label = target.label ∧
      f.items = [{ s with tree := tree, node := node, gap := .absent }.toItem] := by
  simp only [TreeCykRule.fillNode, NodeSpan.ofItem?_of_form hx, Option.bind_eq_bind,
    Option.bind_some, Option.bind_eq_some_iff, Option.ite_none_right_eq_some] at h
  obtain ⟨target, htarget, source, hsource, ⟨hs, hroot, hinitial, hlabel⟩, h⟩ := h
  exact ⟨target, source, htarget, hsource, hs, Address.isRoot_iff.1 hroot, hinitial, hlabel,
    by rw [← Option.some.inj h]⟩

lemma nullAdjoin_eq_some (hx : x.form = s.form) (h : nullAdjoin.fire [x] = some f) :
    s.settled = false ∧ f.items = [{ s with settled := true }.toItem] := by
  simp only [TreeCykRule.fire, NodeSpan.ofItem?_of_form hx, Option.bind_eq_bind, Option.bind_some,
    Option.ite_none_left_eq_some] at h
  exact ⟨by simpa using h.1, by rw [← Option.some.inj h.2]⟩

end Fire

/-! ### Nothing else is concluded -/

/-- The trees that a node stands for: derived trees once adjunction is settled, and before that
those in which only the children are derived. -/
def Stands (g : Grammar) : Bool → Tree → Tree → Prop
  | true, t, u => g.Derives g.MayStay t u
  | false, t, u => t.children ≠ [] ∧
      ∃ us, List.Forall₂ (g.Derives g.MayStay) t.children us ∧ u = { t with children := us }

/-- What an item says: a tree that the node stands for reads the tokens of its span. The exception
are spans without a gap of nodes with a foot below, for which the label of a foot has been read as a
token or as the empty string. They lead to nothing but spans of the same kind. -/
inductive Spans (g : Grammar) (tokens : List String) (s : NodeSpan) : Prop where
  | found {t u : Tree} (node : g.node? s.tree s.node = some t) (stands : Stands g s.settled t u)
      (reads : Reads tokens u.frontier s.start s.gap s.stop)
  | misread {t : Tree} (node : g.node? s.tree s.node = some t) (hole : none ∈ t.frontier)
      (gap : s.gap = .absent) (start_le : s.start ≤ tokens.length)
      (stop_le : s.stop ≤ tokens.length)

lemma count_none_of_stands (hg : g.IsWellFormed) (hfeet : g.HasLeafFeet) {settled : Bool}
    {t u : Tree} (h : Stands g settled t u) : u.frontier.count none = t.frontier.count none := by
  cases settled with
  | true => exact hg.count_none_derives hfeet h
  | false =>
      obtain ⟨hinner, us, hus, rfl⟩ := h
      exact hg.count_none_derives hfeet (.inner hinner hus)

namespace Spans

variable {s r : NodeSpan}

lemma bounds (h : Spans g tokens s) : s.start ≤ tokens.length ∧ s.stop ≤ tokens.length := by
  cases h with
  | found _ _ reads => exact ⟨reads.le.1.trans reads.le.2, reads.le.2⟩
  | misread _ _ _ start_le stop_le => exact ⟨start_le, stop_le⟩

lemma exists_node (h : Spans g tokens s) : ∃ t, g.node? s.tree s.node = some t := by
  cases h with
  | found node => exact ⟨_, node⟩
  | misread node => exact ⟨_, node⟩

/-- The span of an only child is that of its parent. -/
lemma joinOnly (h : Spans g tokens s) {p : Address} (hnode : s.node = p.child 1)
    (hsettled : s.settled = true) (hlast : g.node? s.tree (p.child 2) = none) :
    Spans g tokens { s with node := p, settled := false } := by
  obtain ⟨tree, node, settled, start, gap, stop⟩ := s
  obtain rfl : node = p.child 1 := hnode
  obtain rfl : settled = true := hsettled
  obtain ⟨t, ht⟩ := h.exists_node
  obtain ⟨parent, hparent, hchildren⟩ := Grammar.exists_parent_of_only_child ht hlast
  have hinner : parent.children ≠ [] := by simp [hchildren]
  cases h with
  | @found t u node stands reads =>
      obtain rfl := Option.some.inj (node.symm.trans ht)
      have hus : List.Forall₂ (g.Derives g.MayStay) parent.children [u] := by
        rw [hchildren]
        exact .cons stands .nil
      refine .found hparent ⟨hinner, [u], hus, rfl⟩ ?_
      rw [g.frontier_with_children hinner hus]
      simpa using reads
  | @misread t node hole gap start_le stop_le =>
      obtain rfl := Option.some.inj (node.symm.trans ht)
      refine .misread hparent ?_ gap start_le stop_le
      rw [Tree.frontier_of_children hinner, hchildren]
      simpa using hole

/-- What an initial tree or a tree without adjunction spans is settled. -/
lemma nullAdjoin (h : Spans g tokens s) (hsettled : s.settled = false) :
    Spans g tokens { s with settled := true } := by
  cases h with
  | found node stands reads =>
      rw [hsettled] at stands
      obtain ⟨hinner, us, hus, rfl⟩ := stands
      exact .found node (.inner hinner hus) reads
  | misread node hole gap start_le stop_le => exact .misread node hole gap start_le stop_le

variable (hg : g.IsWellFormed) (hfeet : g.HasLeafFeet)
include hg hfeet

/-- Without a foot below the node there is no gap. -/
lemma gap_eq_absent (h : Spans g tokens s) {t : Tree} (ht : g.node? s.tree s.node = some t)
    (hhole : none ∉ t.frontier) : s.gap = .absent := by
  cases h with
  | found node stands reads =>
      obtain rfl := Option.some.inj (node.symm.trans ht)
      refine reads.gap_eq_absent ?_
      rw [← List.count_eq_zero, count_none_of_stands hg hfeet stands]
      exact List.count_eq_zero.2 hhole
  | misread _ _ gap => exact gap

/-- The spans of two children, one behind the other, make up that of the parent. -/
lemma joinTwo (hbinary : g.IsBinary) (h : Spans g tokens s) (h' : Spans g tokens r) {p : Address}
    {gap : Gap} (hnode : s.node = p.child 1) (hnode' : r.node = p.child 2)
    (hsettled : s.settled = true) (hsettled' : r.settled = true) (htree : s.tree = r.tree)
    (hstop : s.stop = r.start) (hgap : s.gap.join? r.gap = some gap) :
    Spans g tokens { s with node := p, settled := false, gap := gap, stop := r.stop } := by
  obtain ⟨tree, node, settled, start, gap', stop⟩ := s
  obtain ⟨_, node', settled', _, gap'', stop'⟩ := r
  obtain rfl : node = p.child 1 := hnode
  obtain rfl : node' = p.child 2 := hnode'
  obtain rfl : settled = true := hsettled
  obtain rfl : settled' = true := hsettled'
  obtain rfl : tree = _ := htree
  obtain rfl : stop = _ := hstop
  obtain ⟨t, ht⟩ := h.exists_node
  obtain ⟨t', ht'⟩ := h'.exists_node
  obtain ⟨parent, hparent, hchildren⟩ := hg.exists_parent_of_two_children hbinary ht ht'
  have hinner : parent.children ≠ [] := by simp [hchildren]
  have hfrontier : parent.frontier = t.frontier ++ t'.frontier := by
    rw [Tree.frontier_of_children hinner, hchildren]
    simp
  -- at most one of the children has a foot below
  have hcount : t.frontier.count none + t'.frontier.count none ≤ 1 := by
    rw [← List.count_append, ← hfrontier]
    exact hg.count_none_node?_le_one hfeet hparent
  have hbounds := h.bounds
  have hbounds' := h'.bounds
  have hmisread : none ∈ t.frontier ∧ gap' = .absent ∨ none ∈ t'.frontier ∧ gap'' = .absent →
      Spans g tokens ⟨tree, p, false, start, gap, stop'⟩ := by
    intro hone
    have habsent : gap' = .absent ∧ gap'' = .absent := by
      rcases hone with ⟨hhole, rfl⟩ | ⟨hhole, rfl⟩
      · have hpos := List.count_pos_iff.2 hhole
        exact ⟨rfl, h'.gap_eq_absent hg hfeet ht' (List.count_eq_zero.1 (by omega))⟩
      · have hpos := List.count_pos_iff.2 hhole
        exact ⟨h.gap_eq_absent hg hfeet ht (List.count_eq_zero.1 (by omega)), rfl⟩
    obtain ⟨rfl, rfl⟩ := habsent
    refine .misread hparent ?_ (Option.some.inj hgap).symm hbounds.1 hbounds'.2
    rw [hfrontier, List.mem_append]
    exact hone.imp And.left And.left
  cases h with
  | misread node hole gap_absent =>
      obtain rfl := Option.some.inj (node.symm.trans ht)
      exact hmisread (Or.inl ⟨hole, gap_absent⟩)
  | @found t u node stands reads =>
      obtain rfl := Option.some.inj (node.symm.trans ht)
      cases h' with
      | misread node hole gap_absent =>
          obtain rfl := Option.some.inj (node.symm.trans ht')
          exact hmisread (Or.inr ⟨hole, gap_absent⟩)
      | @found t' u' node stands' reads' =>
          obtain rfl := Option.some.inj (node.symm.trans ht')
          have hus : List.Forall₂ (g.Derives g.MayStay) parent.children [u, u'] := by
            rw [hchildren]
            exact .cons stands (.cons stands' .nil)
          refine .found hparent ⟨hinner, [u, u'], hus, rfl⟩ ?_
          rw [g.frontier_with_children hinner hus]
          simpa using reads.append reads' hgap

omit hfeet in
/-- An auxiliary tree adjoins at a node that spans its gap. -/
lemma wrap (h : Spans g tokens s) (h' : Spans g tokens r)
    (hgap : s.gap = ⟨some r.start, some r.stop⟩) (hsettled : s.settled = true)
    (hsettled' : r.settled = false) (hroot : s.node = .root)
    (hadjoin : g.isAdjoinable s.tree r.tree r.node = true) :
    Spans g tokens { r with settled := true, start := s.start, stop := s.stop } := by
  obtain ⟨beta, t, hbeta, ht, -, hlabel⟩ := Grammar.isAdjoinable_iff.1 hadjoin
  have hmem := mem_of_lookup_eq_some hbeta
  have hbounds := h.bounds
  cases h with
  | misread _ _ gap_absent =>
      rw [hgap] at gap_absent
      cases gap_absent
  | @found _ b node stands reads =>
      rw [hroot, Grammar.node?_root, (hg.tree?_of_auxiliary hmem).2, Option.some.injEq] at node
      subst node
      rw [hsettled] at stands
      rw [hgap] at reads
      cases h' with
      | misread node hole gap_absent => exact .misread node hole gap_absent hbounds.1 hbounds.2
      | found node stands' reads' =>
          obtain rfl := Option.some.inj (node.symm.trans ht)
          rw [hsettled'] at stands'
          obtain ⟨hinner, us, hus, rfl⟩ := stands'
          refine .found node (.adjoin hinner hus hmem hlabel.symm stands) ?_
          rw [Tree.frontier_atFoot]
          exact reads.fill reads'

/-- An initial tree fills a substitution node. -/
lemma fillNode (h : Spans g tokens s) {tree : String} {node : Address} {target source : Tree}
    (htarget : g.node? tree node = some target) (hsite : g.IsSite target)
    (hsource : g.tree? s.tree = some source) (hsettled : s.settled = true)
    (hroot : s.node = .root) (hinitial : g.isInitial s.tree = true)
    (hlabel : source.label = target.label) :
    Spans g tokens { s with tree := tree, node := node, gap := .absent } := by
  obtain ⟨alpha, halpha⟩ := Option.isSome_iff_exists.1 hinitial
  have hmem := mem_of_lookup_eq_some halpha
  obtain ⟨-, htree⟩ := hg.tree?_of_initial hmem
  obtain rfl := Option.some.inj (hsource.symm.trans htree)
  have hnode : g.node? s.tree s.node = some source := by rw [hroot, Grammar.node?_root, hsource]
  have hhole : none ∉ source.frontier := List.count_eq_zero.1 (hg.count_none_initial hmem)
  have hgap := h.gap_eq_absent hg hfeet hnode hhole
  cases h with
  | misread node' hole =>
      obtain rfl := Option.some.inj (node'.symm.trans hnode)
      exact absurd hole hhole
  | found node' stands reads =>
      obtain rfl := Option.some.inj (node'.symm.trans hnode)
      rw [hsettled] at stands
      rw [hgap] at reads
      refine .found htarget ?_ reads
      show Stands g s.settled _ _
      rw [hsettled]
      exact .substitute hsite hmem hlabel stands

end Spans

/-! ### The schema -/

section Schema

variable {schema : Schema W}

lemma schema_eq (hbinary : g.IsBinary) (hschema : Schema.treeCyk g tokens = .ok schema) :
    schema = Schema.make
      ((g.trees.flatMap fun (name, t) => t.nodes.flatMap (Schema.leafAxioms g tokens name)) ++
        g.auxiliary.flatMap (Schema.footAxioms tokens))
      ([.treeCyk (.moveUnary g), .treeCyk (.moveBinary g), .treeCyk .nullAdjoin] ++
        (g.substitutionNodes.map fun (tree, node) => Rule.treeCyk (.substitute g tree node)) ++
        [.treeCyk (.adjoin g)])
      (g.startTrees.map fun named => NodeSpan.toItem
        { tree := named.1, node := .root, settled := true, start := 0, gap := .absent,
          stop := tokens.length }) := by
  rw [Schema.treeCyk, Grammar.unbinarized?_eq_none_iff.2 hbinary] at hschema
  exact (Except.ok.inj hschema).symm

/-- The rules of parsing with trees from the bottom up. -/
lemma mem_rules (hbinary : g.IsBinary) (hschema : Schema.treeCyk g tokens = .ok schema)
    {rule : Rule W} :
    rule ∈ schema.rules ↔ rule = .treeCyk (.moveUnary g) ∨ rule = .treeCyk (.moveBinary g) ∨
      rule = .treeCyk .nullAdjoin ∨
      (∃ tree node, g.isSubstitutionNode tree node = true ∧
        .treeCyk (.substitute g tree node) = rule) ∨ rule = .treeCyk (.adjoin g) := by
  rw [schema_eq hbinary hschema]
  simp only [Schema.make, List.cons_append, List.nil_append, List.mem_cons, List.mem_append,
    List.mem_map, Prod.exists, Grammar.mem_substitutionNodes, List.not_mem_nil, or_false]

lemma mem_placesOf {a : String} {i : ℕ} : i ∈ Schema.placesOf tokens a ↔ tokens[i]? = some a := by
  simp only [Schema.placesOf, List.mem_map, List.mem_filter, beq_iff_eq, Prod.exists,
    List.mk_mem_zipIdx_iff_getElem?]
  constructor
  · rintro ⟨b, j, ⟨hb, rfl⟩, rfl⟩
    exact hb
  · exact fun h => ⟨a, i, ⟨h, rfl⟩, rfl⟩

/-- The items of the axioms of a node: a leaf for the empty string at every place, or a terminal at
its places. -/
lemma mem_leafAxioms {tree : String} {node : Address} {t : Tree} {x : Item W} :
    (∃ a ∈ Schema.leafAxioms g tokens tree (node, t), x ∈ a.items) ↔
      t.children = [] ∧
        (t.isEpsilon = true ∧
            (∃ i ≤ tokens.length, x = NodeSpan.toItem ⟨tree, node, true, i, .absent, i⟩) ∨
          t.isEpsilon = false ∧ t.label ∈ g.terminals ∧
            ∃ i, tokens[i]? = some t.label ∧
              x = NodeSpan.toItem ⟨tree, node, true, i, .absent, i + 1⟩) := by
  rw [← Tree.isLeaf_iff, Schema.leafAxioms]
  cases t.isLeaf with
  | false => simp
  | true =>
      cases t.isEpsilon with
      | true => simp [Schema.fact]
      | false =>
          by_cases hterminal : t.label ∈ g.terminals
          · simp [Schema.fact, Grammar.isTerminal, hterminal, mem_placesOf]
          · simp [Grammar.isTerminal, hterminal]

/-- The items of the axioms of a foot: a gap between any two places. -/
lemma mem_footAxioms {named : String × Tree} {x : Item W} :
    (∃ a ∈ Schema.footAxioms tokens named, x ∈ a.items) ↔
      ∃ foot i j, named.2.footAddress? = some foot ∧ i ≤ j ∧ j ≤ tokens.length ∧
        x = NodeSpan.toItem ⟨named.1, foot, true, i, ⟨some i, some j⟩, j⟩ := by
  rw [Schema.footAxioms]
  cases named.2.footAddress? with
  | none => simp
  | some foot =>
      simp only [Schema.fact, List.mem_flatMap, List.mem_range, List.mem_map, List.mem_range'_1,
        Option.some.injEq]
      constructor
      · rintro ⟨_, ⟨i, hi, j, hj, rfl⟩, hx⟩
        exact ⟨foot, i, j, rfl, hj.1, by omega, List.mem_singleton.1 hx⟩
      · rintro ⟨_, i, j, rfl, hij, hj, rfl⟩
        exact ⟨_, ⟨i, by omega, j, by omega, rfl⟩, List.mem_singleton_self _⟩

lemma mem_axioms (hbinary : g.IsBinary) (hschema : Schema.treeCyk g tokens = .ok schema)
    {x : Item W} :
    (∃ a ∈ schema.axioms, x ∈ a.items) ↔
      (∃ name tree, (name, tree) ∈ g.trees ∧ ∃ node t, (node, t) ∈ tree.nodes ∧
        ∃ a ∈ Schema.leafAxioms g tokens name (node, t), x ∈ a.items) ∨
      ∃ named ∈ g.auxiliary, ∃ a ∈ Schema.footAxioms tokens named, x ∈ a.items := by
  rw [schema_eq hbinary hschema]
  simp only [Schema.make, List.mem_append, List.mem_flatMap, Prod.exists]
  constructor
  · rintro ⟨a, ⟨name, tree, htree, node, t, ht, ha⟩ | ⟨named, tree, hnamed, ha⟩, hx⟩
    · exact Or.inl ⟨name, tree, htree, node, t, ht, a, ha, hx⟩
    · exact Or.inr ⟨named, tree, hnamed, a, ha, hx⟩
  · rintro (⟨name, tree, htree, node, t, ht, a, ha, hx⟩ | ⟨named, tree, hnamed, a, ha, hx⟩)
    · exact ⟨a, Or.inl ⟨name, tree, htree, node, t, ht, ha⟩, hx⟩
    · exact ⟨a, Or.inr ⟨named, tree, hnamed, ha⟩, hx⟩

lemma isUnweighted_and_isUnambiguous (hbinary : g.IsBinary)
    (hschema : Schema.treeCyk g tokens = .ok schema) :
    ∀ rule ∈ schema.rules, rule.IsUnweighted ∧ rule.IsUnambiguous := by
  intro rule hrule
  rcases (mem_rules hbinary hschema).1 hrule with rfl | rfl | rfl | ⟨_, _, -, rfl⟩ | rfl <;>
    exact ⟨trivial, trivial⟩

/-- Whether an item carries no trees and says something true. -/
def IsTrue (g : Grammar) (tokens : List String) (x : Item W) : Prop :=
  x.trees = [] ∧ ∃ s, x.form = NodeSpan.form s ∧ Spans g tokens s

lemma IsTrue.of_span {s : NodeSpan} (h : Spans g tokens s) :
    IsTrue g tokens (s.toItem : Item W) := ⟨rfl, s, rfl, h⟩

variable (hg : g.IsWellFormed) (hfeet : g.HasLeafFeet) (hbinary : g.IsBinary)
  (hschema : Schema.treeCyk g tokens = .ok schema)
include hg hfeet hbinary hschema

/-- Axioms are true. -/
lemma isTrue_of_fact {x : Item W} (hx : ∃ a ∈ schema.axioms, x ∈ a.items) :
    IsTrue g tokens x := by
  rcases (mem_axioms hbinary hschema).1 hx with
    ⟨name, tree, htree, node, t, ht, hx⟩ | ⟨⟨name, tree⟩, hmem, hx⟩
  · have hnode : g.node? name node = some t :=
      Grammar.node?_eq_some_iff.2 ⟨tree, hg.tree?_eq_some_iff.2 htree, Tree.mem_nodes.1 ht⟩
    obtain ⟨hleaf, ⟨hepsilon, i, hi, rfl⟩ | ⟨hepsilon, hterminal, i, hi, rfl⟩⟩ :=
      mem_leafAxioms.1 hx
    · refine .of_span ?_
      cases hfoot : t.foot with
      | true => exact .misread hnode (by simp [Tree.frontier_of_foot hleaf hfoot]) rfl hi hi
      | false =>
          refine .found (u := t) hnode (.stay hleaf (Or.inr (Or.inl hepsilon))) ?_
          rw [Tree.frontier_of_isEpsilon hepsilon hfoot]
          exact .nil hi
    · refine .of_span ?_
      have hlt : i < tokens.length := (List.getElem?_eq_some_iff.1 hi).1
      cases hfoot : t.foot with
      | true =>
          exact .misread hnode (by simp [Tree.frontier_of_foot hleaf hfoot]) rfl hlt.le hlt
      | false =>
          refine .found (u := t) hnode (.stay hleaf (Or.inr (Or.inr hterminal))) ?_
          rw [Tree.frontier_of_label hleaf hfoot hepsilon]
          exact .token hi (.nil hlt)
  · obtain ⟨foot, i, j, hfoot, hij, hj, rfl⟩ := mem_footAxioms.1 hx
    have hfound : g.foot? name = some foot := by
      rw [Grammar.foot?, (hg.tree?_of_auxiliary hmem).1]
      exact hfoot
    obtain ⟨t, hnode, htfoot⟩ := hg.foot?_eq_some_iff.1 hfound
    have hleaf := hg.isLeaf_of_foot hfeet hnode htfoot
    refine .of_span (.found (u := t) hnode (.stay hleaf (Or.inl htfoot)) ?_)
    rw [Tree.frontier_of_foot hleaf htfoot]
    exact .hole hij (.nil hj)

variable [Weight W]

/-- True items lead to true items only. -/
lemma isTrue_of_fire {rule : Rule W} (hrule : rule ∈ schema.rules) {xs : List (Item W)}
    {f : Firing W} (hxs : ∀ x ∈ xs, ∃ s, x.form = NodeSpan.form s ∧ Spans g tokens s)
    (hf : rule.fire? xs = some f) : ∀ y ∈ f.items, IsTrue g tokens y := by
  have hitem : ∀ {s : NodeSpan}, f.items = [s.toItem] → Spans g tokens s →
      ∀ y ∈ f.items, IsTrue g tokens y := by
    intro s hitems hs y hy
    rw [hitems, List.mem_singleton] at hy
    exact hy ▸ .of_span hs
  obtain ⟨hlen, hf⟩ := Rule.fire?_eq_some.1 hf
  rcases (mem_rules hbinary hschema).1 hrule with
    rfl | rfl | rfl | ⟨tree, node, hsite, rfl⟩ | rfl
  · obtain ⟨x, rfl⟩ := List.length_eq_one_iff.1 hlen
    obtain ⟨s, hx, hs⟩ := hxs x List.mem_cons_self
    obtain ⟨p, hnode, hsettled, hlast, hitems⟩ := joinOnly_eq_some hx hf
    exact hitem hitems (hs.joinOnly hnode hsettled hlast)
  · obtain ⟨x, y, rfl⟩ := List.length_eq_two.1 hlen
    obtain ⟨s, hx, hs⟩ := hxs x (by simp)
    obtain ⟨r, hy, hr⟩ := hxs y (by simp)
    rcases Firing.eq_some_of_eitherOrder? hf with hf | hf
    · obtain ⟨p, gap, hnode, hnode', h, h', htree, hstop, hgap, hitems⟩ :=
        joinTwo_eq_some hx hy hf
      exact hitem hitems (hs.joinTwo hg hfeet hbinary hr hnode hnode' h h' htree hstop hgap)
    · obtain ⟨p, gap, hnode, hnode', h, h', htree, hstop, hgap, hitems⟩ :=
        joinTwo_eq_some hy hx hf
      exact hitem hitems (hr.joinTwo hg hfeet hbinary hs hnode hnode' h h' htree hstop hgap)
  · obtain ⟨x, rfl⟩ := List.length_eq_one_iff.1 hlen
    obtain ⟨s, hx, hs⟩ := hxs x List.mem_cons_self
    obtain ⟨hsettled, hitems⟩ := nullAdjoin_eq_some hx hf
    exact hitem hitems (hs.nullAdjoin hsettled)
  · obtain ⟨x, rfl⟩ := List.length_eq_one_iff.1 hlen
    obtain ⟨s, hx, hs⟩ := hxs x List.mem_cons_self
    obtain ⟨target, source, htarget, hsource, hsettled, hroot, hinitial, hlabel, hitems⟩ :=
      fillNode_eq_some hx hf
    obtain ⟨t, ht, hsite⟩ := Grammar.isSubstitutionNode_iff.1 hsite
    obtain rfl := Option.some.inj (ht.symm.trans htarget)
    exact hitem hitems
      (hs.fillNode hg hfeet htarget hsite hsource hsettled hroot hinitial hlabel)
  · obtain ⟨x, y, rfl⟩ := List.length_eq_two.1 hlen
    obtain ⟨s, hx, hs⟩ := hxs x (by simp)
    obtain ⟨r, hy, hr⟩ := hxs y (by simp)
    rcases Firing.eq_some_of_eitherOrder? hf with hf | hf
    · obtain ⟨_, _, hgap, h, h', hroot, hadjoin, rfl, rfl, hitems⟩ := wrap_eq_some hx hy hf
      exact hitem hitems (hs.wrap hg hr hgap h h' hroot hadjoin)
    · obtain ⟨_, _, hgap, h, h', hroot, hadjoin, rfl, rfl, hitems⟩ := wrap_eq_some hy hx hf
      exact hitem hitems (hr.wrap hg hs hgap h h' hroot hadjoin)

/-- The forms of true items are closed under the rules. -/
lemma isClosed_spans : schema.IsClosed {form | ∃ s, form = NodeSpan.form s ∧ Spans g tokens s} := by
  refine ⟨fun a ha x hx => ?_, fun rule hrule xs f hxs _ hf y hy => ?_⟩
  · exact (isTrue_of_fact hg hfeet hbinary hschema ⟨a, ha, hx⟩).2
  · exact (isTrue_of_fire hg hfeet hbinary hschema hrule hxs hf y hy).2

end Schema

/-! ### Everything else is concluded -/

section Closed

variable [Weight W] {schema : Schema W} {F : Set Form} {name aux : String} {a p : Address}
  {i j k l m : ℕ} {gap gap' joined : Gap}

variable (hg : g.IsWellFormed) (hbinary : g.IsBinary)
  (hschema : Schema.treeCyk g tokens = .ok schema) (hF : schema.IsClosed F)
include hbinary hschema hF

lemma mem_joinOnly (h : NodeSpan.form ⟨name, p.child 1, true, i, gap, j⟩ ∈ F)
    (hlast : g.node? name (p.child 2) = none) : NodeSpan.form ⟨name, p, false, i, gap, j⟩ ∈ F := by
  have hfire : (Rule.treeCyk (W := W) (.moveUnary g)).fire?
      [.ofForm (NodeSpan.form ⟨name, p.child 1, true, i, gap, j⟩)] =
        some ⟨TreeCykRule.name (.moveUnary g), [NodeSpan.toItem ⟨name, p, false, i, gap, j⟩]⟩ := by
    simp [Rule.fire?, Rule.arity, arity, Rule.fire, TreeCykRule.fire, joinOnly,
      NodeSpan.ofItem?_ofForm, hlast, Firing.one]
  exact hF.mem_of_fire ((mem_rules hbinary hschema).2 (Or.inl rfl)) [_] (by simpa using h)
    (List.nodup_singleton _) hfire (List.mem_singleton_self _)

lemma mem_joinTwo (h : NodeSpan.form ⟨name, p.child 1, true, i, gap, k⟩ ∈ F)
    (h' : NodeSpan.form ⟨name, p.child 2, true, k, gap', j⟩ ∈ F)
    (hjoin : gap.join? gap' = some joined) :
    NodeSpan.form ⟨name, p, false, i, joined, j⟩ ∈ F := by
  have hjoined : joinTwo g (.ofForm (NodeSpan.form ⟨name, p.child 1, true, i, gap, k⟩))
      (.ofForm (NodeSpan.form ⟨name, p.child 2, true, k, gap', j⟩)) =
        some (⟨TreeCykRule.name (.moveBinary g),
          [NodeSpan.toItem ⟨name, p, false, i, joined, j⟩]⟩ : Firing W) := by
    simp [joinTwo, NodeSpan.ofItem?_ofForm, hjoin, Firing.one]
  have hfire : (Rule.treeCyk (W := W) (.moveBinary g)).fire?
      [.ofForm (NodeSpan.form ⟨name, p.child 1, true, i, gap, k⟩),
        .ofForm (NodeSpan.form ⟨name, p.child 2, true, k, gap', j⟩)] =
        some ⟨TreeCykRule.name (.moveBinary g),
          [NodeSpan.toItem ⟨name, p, false, i, joined, j⟩]⟩ := by
    simp [Rule.fire?, Rule.arity, arity, Rule.fire, TreeCykRule.fire, Firing.eitherOrder?, hjoined]
  have hne : NodeSpan.form ⟨name, p.child 1, true, i, gap, k⟩ ≠
      NodeSpan.form ⟨name, p.child 2, true, k, gap', j⟩ := by
    intro heq
    have := congrArg NodeSpan.node (NodeSpan.form_injective heq)
    simp at this
  exact hF.mem_of_fire ((mem_rules hbinary hschema).2 (Or.inr (Or.inl rfl))) [_, _]
    (by simp [h, h']) (by simpa using hne) hfire (List.mem_singleton_self _)

lemma mem_nullAdjoin (h : NodeSpan.form ⟨name, a, false, i, gap, j⟩ ∈ F) :
    NodeSpan.form ⟨name, a, true, i, gap, j⟩ ∈ F := by
  have hfire : (Rule.treeCyk (W := W) .nullAdjoin).fire?
      [.ofForm (NodeSpan.form ⟨name, a, false, i, gap, j⟩)] =
        some ⟨TreeCykRule.name .nullAdjoin, [NodeSpan.toItem ⟨name, a, true, i, gap, j⟩]⟩ := by
    simp [Rule.fire?, Rule.arity, arity, Rule.fire, TreeCykRule.fire, NodeSpan.ofItem?_ofForm,
      Firing.one]
  exact hF.mem_of_fire ((mem_rules hbinary hschema).2 (by simp)) [_] (by simpa using h)
    (List.nodup_singleton _) hfire (List.mem_singleton_self _)

lemma mem_wrap (h : NodeSpan.form ⟨aux, .root, true, i, ⟨some k, some l⟩, j⟩ ∈ F)
    (h' : NodeSpan.form ⟨name, a, false, k, gap, l⟩ ∈ F)
    (hadjoin : g.isAdjoinable aux name a = true) :
    NodeSpan.form ⟨name, a, true, i, gap, j⟩ ∈ F := by
  have hwrap : TreeCykRule.wrap g
      (.ofForm (NodeSpan.form ⟨aux, .root, true, i, ⟨some k, some l⟩, j⟩))
      (.ofForm (NodeSpan.form ⟨name, a, false, k, gap, l⟩)) =
        some (⟨"adjoin " ++ aux ++ " " ++ placeText name a,
          [NodeSpan.toItem ⟨name, a, true, i, gap, j⟩]⟩ : Firing W) := by
    simp [TreeCykRule.wrap, NodeSpan.ofItem?_ofForm, hadjoin, Firing.one, Address.isRoot_iff.2 rfl]
  have hfire : (Rule.treeCyk (W := W) (.adjoin g)).fire?
      [.ofForm (NodeSpan.form ⟨aux, .root, true, i, ⟨some k, some l⟩, j⟩),
        .ofForm (NodeSpan.form ⟨name, a, false, k, gap, l⟩)] =
        some ⟨"adjoin " ++ aux ++ " " ++ placeText name a,
          [NodeSpan.toItem ⟨name, a, true, i, gap, j⟩]⟩ := by
    simp [Rule.fire?, Rule.arity, arity, Rule.fire, TreeCykRule.fire, Firing.eitherOrder?, hwrap]
  have hne : NodeSpan.form ⟨aux, .root, true, i, ⟨some k, some l⟩, j⟩ ≠
      NodeSpan.form ⟨name, a, false, k, gap, l⟩ := by
    intro heq
    have := congrArg NodeSpan.settled (NodeSpan.form_injective heq)
    simp at this
  exact hF.mem_of_fire ((mem_rules hbinary hschema).2 (by simp)) [_, _] (by simp [h, h'])
    (by simpa using hne) hfire (List.mem_singleton_self _)

include hg

lemma mem_fillNode {t alpha : Tree} (h : NodeSpan.form ⟨aux, .root, true, i, .absent, j⟩ ∈ F)
    (ht : g.node? name a = some t) (hsite : g.IsSite t) (hmem : (aux, alpha) ∈ g.initial)
    (hlabel : alpha.label = t.label) : NodeSpan.form ⟨name, a, true, i, .absent, j⟩ ∈ F := by
  obtain ⟨hlookup, htree⟩ := hg.tree?_of_initial hmem
  have hfire : (Rule.treeCyk (W := W) (.substitute g name a)).fire?
      [.ofForm (NodeSpan.form ⟨aux, .root, true, i, .absent, j⟩)] =
        some ⟨"substitute " ++ aux ++ " " ++ placeText name a,
          [NodeSpan.toItem ⟨name, a, true, i, .absent, j⟩]⟩ := by
    simp [Rule.fire?, Rule.arity, arity, Rule.fire, TreeCykRule.fire, TreeCykRule.fillNode,
      NodeSpan.ofItem?_ofForm, ht, htree, Grammar.isInitial, hlookup, hlabel, Firing.one,
      Address.isRoot_iff.2 rfl]
  refine hF.mem_of_fire ((mem_rules hbinary hschema).2 ?_) [_] (by simpa using h)
    (List.nodup_singleton _) hfire (List.mem_singleton_self _)
  exact Or.inr (Or.inr (Or.inr (Or.inl
    ⟨name, a, Grammar.isSubstitutionNode_iff.2 ⟨t, ht, hsite⟩, rfl⟩)))

/-- A leaf that stays spans what it reads. -/
lemma mem_of_stay {t : Tree} (ht : g.node? name a = some t) (hleaf : t.children = [])
    (hstay : g.MayStay t) (hreads : Reads tokens t.frontier i gap j) :
    NodeSpan.form ⟨name, a, true, i, gap, j⟩ ∈ F := by
  obtain ⟨tree, htree, hnode⟩ := hg.mem_nodes_of_node? ht
  have hfact : ∀ {s : NodeSpan},
      (∃ b ∈ schema.axioms, (s.toItem : Item W) ∈ b.items) → s.form ∈ F := by
    rintro s ⟨b, hb, hs⟩
    exact hF.axioms_mem b hb _ hs
  cases hfoot : t.foot with
  | true =>
      -- only auxiliary trees have feet, and the one that is found is this one
      obtain ⟨beta, hbeta, hfound⟩ :=
        Option.bind_eq_some_iff.1 (hg.foot?_eq_some_iff.2 ⟨t, ht, hfoot⟩)
      rw [Tree.frontier_of_foot hleaf hfoot] at hreads
      cases hreads with
      | hole hle rest =>
          cases rest with
          | nil hj =>
              refine hfact ((mem_axioms hbinary hschema).2 (Or.inr
                ⟨(name, beta), mem_of_lookup_eq_some hbeta, ?_⟩))
              exact mem_footAxioms.2 ⟨a, i, j, hfound, hle, hj, rfl⟩
  | false =>
      have hleafAxiom := fun {s : NodeSpan} hs => hfact (s := s)
        ((mem_axioms hbinary hschema).2 (Or.inl ⟨name, tree, htree, a, t, hnode, hs⟩))
      cases hepsilon : t.isEpsilon with
      | true =>
          rw [Tree.frontier_of_isEpsilon hepsilon hfoot] at hreads
          cases hreads with
          | nil hi =>
              exact hleafAxiom (mem_leafAxioms.2 ⟨hleaf, Or.inl ⟨hepsilon, i, hi, rfl⟩⟩)
      | false =>
          have hterminal : t.label ∈ g.terminals := by
            simpa [Grammar.MayStay, hfoot, hepsilon] using hstay
          rw [Tree.frontier_of_label hleaf hfoot hepsilon] at hreads
          cases hreads with
          | token htoken rest =>
              cases rest with
              | nil =>
                  exact hleafAxiom
                    (mem_leafAxioms.2 ⟨hleaf, Or.inr ⟨hepsilon, hterminal, i, htoken, rfl⟩⟩)

/-- Children that are settled make up the span of their parent. -/
lemma mem_of_children {t : Tree} {us : List Tree} (hinner : t.children ≠ [])
    (hus : List.Forall₂ (fun t u => ∀ name a i gap j, g.node? name a = some t →
      Reads tokens u.frontier i gap j → NodeSpan.form ⟨name, a, true, i, gap, j⟩ ∈ F)
      t.children us)
    (ht : g.node? name a = some t) (hreads : Reads tokens (us.flatMap Tree.frontier) i gap j) :
    NodeSpan.form ⟨name, a, false, i, gap, j⟩ ∈ F := by
  have hlength := hg.length_children_le_two hbinary ht
  have hchild : ∀ n, g.node? name (a.child (n + 1)) = t.children[n]? := fun n => by
    rw [Grammar.node?_child, ht]
    rfl
  generalize t.children = children at hinner hus hlength hchild
  match children, us, hus with
  | [], _, _ => exact absurd rfl hinner
  | [c], [u], .cons hu .nil =>
      have hreads' : Reads tokens u.frontier i gap j := by simpa using hreads
      exact mem_joinOnly hbinary hschema hF (hu name _ i gap j (hchild 0) hreads') (hchild 1)
  | [c, d], [u, v], .cons hu (.cons hv .nil) =>
      have hreads' : Reads tokens (u.frontier ++ v.frontier) i gap j := by simpa using hreads
      obtain ⟨k, gap₁, gap₂, hleft, hright, hjoin⟩ := hreads'.exists_of_append
      exact mem_joinTwo hbinary hschema hF (hu name _ i gap₁ k (hchild 0) hleft)
        (hv name _ k gap₂ j (hchild 1) hright) hjoin
  | _ :: _ :: _ :: _, _, _ => simp at hlength

/-- A closed set contains an item for every derived tree that reads a part of the input. -/
lemma mem_of_derives (hfeet : g.HasLeafFeet) {t u : Tree} (h : g.Derives g.MayStay t u) :
    ∀ name a i gap j, g.node? name a = some t → Reads tokens u.frontier i gap j →
      NodeSpan.form ⟨name, a, true, i, gap, j⟩ ∈ F := by
  refine Grammar.Derives.ind ?stay ?substitute ?inner ?adjoin h
  case stay =>
    intro t hleaf hstay name a i gap j ht hreads
    exact mem_of_stay hg hbinary hschema hF ht hleaf hstay hreads
  case substitute =>
    intro t u alpha source hsite hmem hlabel hderives ih name a i gap j ht hreads
    have hroot : g.node? source .root = some alpha := by
      rw [Grammar.node?_root, (hg.tree?_of_initial hmem).2]
    -- what is derived from an initial tree has no hole
    have hhole : none ∉ u.frontier := by
      rw [← List.count_eq_zero, hg.count_none_derives hfeet hderives, hg.count_none_initial hmem]
    obtain rfl := hreads.gap_eq_absent hhole
    exact mem_fillNode hg hbinary hschema hF (ih source .root i .absent j hroot hreads) ht hsite
      hmem hlabel
  case inner =>
    intro t us hinner hus ih name a i gap j ht hreads
    rw [g.frontier_with_children hinner hus] at hreads
    exact mem_nullAdjoin hbinary hschema hF
      (mem_of_children hg hbinary hschema hF hinner ih ht hreads)
  case adjoin =>
    intro t us beta b source hinner hus ihus hmem hlabel hb ihb name a i gap j ht hreads
    obtain ⟨hlookup, htree⟩ := hg.tree?_of_auxiliary hmem
    have hroot : g.node? source .root = some beta := by rw [Grammar.node?_root, htree]
    have hone : b.frontier.count none = 1 := by
      rw [hg.count_none_derives hfeet hb, hg.count_none_auxiliary hfeet hmem]
    rw [Tree.frontier_atFoot, g.frontier_with_children hinner hus] at hreads
    obtain ⟨k, l, hreads, hinside⟩ := Reads.exists_of_fill hone hreads
    refine mem_wrap hbinary hschema hF (ihb source .root i _ j hroot hreads)
      (mem_of_children hg hbinary hschema hF hinner ihus ht hinside) ?_
    exact Grammar.isAdjoinable_iff.2 ⟨beta, t, hlookup, ht, hinner, hlabel.symm⟩

end Closed

/-! ### Runs -/

/-- There are finitely many spans that say something true. -/
lemma finite_spans (hg : g.IsWellFormed) (tokens : List String) :
    {s | Spans g tokens s}.Finite := by
  have hplaces := Set.finite_le_nat tokens.length
  refine ((hg.finite_nodes.prod (Set.finite_univ.prod (hplaces.prod
    ((Gap.finite_le tokens.length).prod hplaces)))).image
    fun (node, settled, start, gap, stop) =>
      NodeSpan.mk node.1 node.2 settled start gap stop).subset ?_
  intro s hs
  have hgap : (∀ k, s.gap.start = some k → k ≤ tokens.length) ∧
      ∀ k, s.gap.stop = some k → k ≤ tokens.length := by
    cases hs with
    | misread _ _ hgap => simp [hgap, Gap.absent]
    | found _ _ reads =>
        rcases reads.gap_cases with ⟨-, hgap⟩ | ⟨-, k, l, hgap, -, hkl, hlj⟩
        · simp [hgap, Gap.absent]
        · have hl : l ≤ tokens.length := hlj.trans reads.le.2
          rw [hgap]
          exact ⟨by rintro _ ⟨⟩; exact hkl.trans hl, by rintro _ ⟨⟩; exact hl⟩
  exact ⟨((s.tree, s.node), s.settled, s.start, s.gap, s.stop),
    ⟨hs.exists_node, Set.mem_univ _, hs.bounds.1, hgap, hs.bounds.2⟩, rfl⟩

section Runs

variable [Weight W] {schema : Schema W}

/-- Bounds for a run: its items say something true and carry no trees. -/
noncomputable def bounds (hg : g.IsWellFormed) (hfeet : g.HasLeafFeet) (hbinary : g.IsBinary)
    (hschema : Schema.treeCyk g tokens = .ok schema) : schema.Bounds where
  Holds := IsTrue g tokens
  forms := ((finite_spans hg tokens).image NodeSpan.form).toFinset
  trees := ∅
  holds_axiom a ha x hx := isTrue_of_fact hg hfeet hbinary hschema ⟨a, ha, hx⟩
  holds_fire rule hrule xs f hxs hf :=
    isTrue_of_fire hg hfeet hbinary hschema hrule (fun x hx => (hxs x hx).2) hf
  holds_merge x y hx hy _ := by
    refine ⟨?_, hx.2⟩
    simp [hx.1, hy.1, Forest.merge]
  form_mem x hx := by
    obtain ⟨-, s, hform, hs⟩ := hx
    exact (Set.Finite.mem_toFinset _).2 ⟨s, hs, hform.symm⟩
  tree_mem x hx := by simp [hx.1]

/-- When a run has ended, something is derivable exactly if the grammar generates the input. -/
lemma isDerivable_iff_of_run (hg : g.IsWellFormed) (hfeet : g.HasLeafFeet) (hbinary : g.IsBinary)
    (hschema : Schema.treeCyk g tokens = .ok schema) {settings : Settings} {fuel : ℕ}
    {o : Outcome W} (h : Deduction.run settings schema fuel = .ok o) :
    o.isDerivable = true ↔ g.Generates g.MayStay tokens := by
  obtain ⟨hleast, hderivable⟩ := Deduction.isLeast_and_isDerivable_iff_of_run
    (isUnweighted_and_isUnambiguous hbinary hschema) h
  have hgoals : (∃ x ∈ schema.goals, x.form ∈ o.chart.forms) ↔
      ∃ name alpha, (name, alpha) ∈ g.initial ∧ alpha.label = g.start ∧
        NodeSpan.form ⟨name, .root, true, 0, .absent, tokens.length⟩ ∈ o.chart.forms := by
    rw [schema_eq hbinary hschema, Schema.exists_goal_make]
    simp only [Grammar.startTrees, List.mem_map, List.mem_filter, beq_iff_eq, Prod.exists]
    constructor
    · rintro ⟨_, ⟨name, alpha, ⟨hmem, hstart⟩, rfl⟩, hform⟩
      exact ⟨name, alpha, hmem, hstart, hform⟩
    · rintro ⟨name, alpha, hmem, hstart, hform⟩
      exact ⟨_, ⟨name, alpha, ⟨hmem, hstart⟩, rfl⟩, hform⟩
  rw [hderivable, hgoals]
  constructor
  · rintro ⟨name, alpha, hmem, hstart, hform⟩
    obtain ⟨s, hs, hspans⟩ := hleast.2 (isClosed_spans hg hfeet hbinary hschema) hform
    obtain rfl := NodeSpan.form_injective hs
    have htree := (hg.tree?_of_initial hmem).2
    have hroot : g.node? name .root = some alpha := by rw [Grammar.node?_root, htree]
    cases hspans with
    | misread node hole =>
        obtain rfl := Option.some.inj (node.symm.trans hroot)
        exact absurd hole (List.count_eq_zero.1 (hg.count_none_initial hmem))
    | @found t u node stands reads =>
        obtain rfl := Option.some.inj (node.symm.trans hroot)
        exact ⟨name, t, u, hmem, hstart, stands, reads_iff_map_some.1 reads⟩
  · rintro ⟨name, alpha, u, hmem, hstart, hderives, hfrontier⟩
    have htree := (hg.tree?_of_initial hmem).2
    refine ⟨name, alpha, hmem, hstart, ?_⟩
    exact mem_of_derives hg hbinary hschema hleast.1 hfeet hderives name .root 0 .absent _
      (by rw [Grammar.node?_root, htree]) (reads_iff_map_some.2 hfrontier)

/-- For every grammar that is read from a file, whose feet are leaves and whose nodes have at most
two children, and for every input: the run of parsing from the bottom up that keeps all derivations
ends, and whenever a run has ended, something is derivable exactly if the input is spelled by a tree
derived from an initial tree with the start symbol. There a leaf with a terminal may stay even if
its label is declared as a nonterminal too. -/
theorem treeCyk_isDerivable_exact {file : String}
    (hread : GrammarFile.readTreeAdjoining file = .ok g) (hfeet : g.HasLeafFeet)
    (hbinary : g.IsBinary) (tokens : List String) :
    ∃ schema : Schema W, Schema.treeCyk g tokens = .ok schema ∧
      (∃ fuel o, Deduction.run ⟨.accumulate, none⟩ schema fuel = .ok o) ∧
      ∀ settings fuel o, Deduction.run settings schema fuel = .ok o →
        (o.isDerivable = true ↔ g.Generates g.MayStay tokens) := by
  have hg := GrammarFile.isWellFormed_of_read hread
  obtain ⟨schema, hschema⟩ : ∃ schema : Schema W, Schema.treeCyk g tokens = .ok schema := by
    rw [Schema.treeCyk, Grammar.unbinarized?_eq_none_iff.2 hbinary]
    exact ⟨_, rfl⟩
  refine ⟨schema, hschema, Deduction.exists_run rfl rfl (bounds hg hfeet hbinary hschema), ?_⟩
  intro settings fuel o h
  exact isDerivable_iff_of_run hg hfeet hbinary hschema h

end Runs

/-- A run on two brackets ends with a parse. -/
theorem exists_treeCyk_isDerivable_exact_brackets :
    ∃ (schema : Schema Float) (fuel : ℕ) (o : Outcome Float),
      GrammarFile.readTreeAdjoining bracketsFile = .ok bracketsGrammar ∧
      bracketsGrammar.HasLeafFeet ∧ bracketsGrammar.IsBinary ∧
      Schema.treeCyk bracketsGrammar ["a", "b"] = .ok schema ∧
      Deduction.run ⟨.accumulate, none⟩ schema fuel = .ok o ∧ o.isDerivable = true := by
  have hfeet : bracketsGrammar.HasLeafFeet := by decide
  have hbinary : bracketsGrammar.IsBinary := by decide
  obtain ⟨schema, hschema, ⟨fuel, o, h⟩, hexact⟩ :=
    treeCyk_isDerivable_exact (W := Float) read_bracketsFile hfeet hbinary ["a", "b"]
  exact ⟨schema, fuel, o, read_bracketsFile, hfeet, hbinary, hschema, h,
    (hexact _ _ _ h).2 generates_brackets⟩

/-- A leaf with a nonterminal need not be filled: if its label is a terminal too, the run finds a
parse where all such leaves would have to be filled to generate the input. -/
theorem exists_treeCyk_isDerivable_overlap :
    ∃ (schema : Schema Float) (fuel : ℕ) (o : Outcome Float),
      GrammarFile.readTreeAdjoining overlapFile = .ok overlapGrammar ∧
      overlapGrammar.HasLeafFeet ∧ overlapGrammar.IsBinary ∧
      epsilon ∉ overlapGrammar.nonterminals ∧ epsilon ∉ overlapGrammar.terminals ∧
      Schema.treeCyk overlapGrammar ["a"] = .ok schema ∧
      Deduction.run ⟨.accumulate, none⟩ schema fuel = .ok o ∧ o.isDerivable = true ∧
      ¬overlapGrammar.Generates overlapGrammar.MustStay ["a"] := by
  have hfeet : overlapGrammar.HasLeafFeet := by decide
  have hbinary : overlapGrammar.IsBinary := by decide
  have hg := GrammarFile.isWellFormed_of_read read_overlapFile
  obtain ⟨schema, hschema⟩ : ∃ schema : Schema Float,
      Schema.treeCyk overlapGrammar ["a"] = .ok schema := ⟨_, rfl⟩
  obtain ⟨fuel, o, h⟩ : ∃ fuel o, Deduction.run ⟨.accumulate, none⟩ schema fuel = .ok o :=
    Deduction.exists_run rfl rfl (bounds hg hfeet hbinary hschema)
  exact ⟨schema, fuel, o, read_overlapFile, hfeet, hbinary, by decide, by decide, hschema, h,
    (isDerivable_iff_of_run hg hfeet hbinary hschema h).2 generates_overlap,
    not_generates_overlap⟩

end TreeCyk

end DeductiveParsing
