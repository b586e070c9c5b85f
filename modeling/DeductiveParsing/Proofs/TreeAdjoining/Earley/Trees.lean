/-
The trees that parsing with trees from the left ends with.

* `Tree.frontier_eq_map_leafLabels`: without feet the labels of the leaves are the frontier, up to
  the empty string;
* `TreeEarley.isPreserved_isFound`: on the way around a tree, the parts of it that the walk has
  passed are derived and read, whatever stands in the other parts;
* `TreeEarley.ne_nil_of_step`: a step from items with trees leads to an item with trees;
* `TreeEarley.treeEarley_trees`: so the trees of an outcome are derived from initial trees with the
  start symbol and spell the input.
-/
import DeductiveParsing.Proofs.TreeAdjoining.Earley.Parts
import DeductiveParsing.Proofs.TreeAdjoining.Earley.Recognition

namespace DeductiveParsing

/-! ### Leaves -/

namespace Tree

variable {t : Tree}

/-- In a tree without feet whose nodes have labels, the frontier is the labels of all leaves that
do not stand for the empty string. -/
theorem frontier_eq_map_leafLabels (hfeet : t.Everywhere fun u => u.foot = false)
    (hlabels : t.IsLabelled) :
    t.frontier = (t.leafLabels.filter (· ≠ epsilon)).map some := by
  induction t using ind with
  | h label foot children ih =>
      obtain ⟨hfoot, hchildren⟩ := everywhere_iff.1 hfeet
      obtain ⟨hlabel, hlabelled⟩ := isLabelled_iff.1 hlabels
      by_cases hleaf : children = []
      · have hne : label ≠ "" := hlabel hfoot
        rw [leafLabels_of_leaf (t := ⟨label, foot, children⟩) hleaf]
        cases hempty : (⟨label, foot, children⟩ : Tree).isEpsilon with
        | true =>
            obtain rfl : label = epsilon := (isEpsilon_iff.1 hempty).2.resolve_right hne
            rw [frontier_of_isEpsilon hempty hfoot]
            rfl
        | false =>
            have hvisible : label ≠ epsilon := by
              rintro rfl
              rw [isEpsilon_iff.2 ⟨hleaf, Or.inl rfl⟩] at hempty
              cases hempty
            rw [frontier_of_label hleaf hfoot hempty]
            simp [hvisible]
      · rw [frontier_of_children (t := ⟨label, foot, children⟩) hleaf,
          leafLabels_of_children (t := ⟨label, foot, children⟩) hleaf, List.filter_flatMap,
          List.map_flatMap]
        exact List.flatMap_congr fun c hc => ih c hc (hchildren c hc) (hlabelled c hc)

end Tree

open TreeAdjoining

variable {W : Type} {g : Grammar} {tokens : List String}

namespace TreeAdjoining.Grammar.IsWellFormed

variable {Stays : Tree → Prop} {name : String} {t alpha : Tree}

/-- What is derived from an initial tree has no foot. -/
lemma everywhere_not_foot (hg : g.IsWellFormed) (hfeet : g.HasLeafFeet)
    (hmem : (name, alpha) ∈ g.initial) (h : g.Derives Stays alpha t) :
    t.Everywhere fun u => u.foot = false := by
  have hleaf : t.HasLeafFeet := h.everywhere Tree.isInherited_leafFoot
    (fun _ hnamed => TreeEarley.hasLeafFeet_tree hfeet hnamed)
    (TreeEarley.hasLeafFeet_tree hfeet (List.mem_append_left _ hmem))
  have hnone : t.frontier.count none = 0 := by
    rw [hg.count_none_derives hfeet h, hg.count_none_initial hmem]
  rw [Tree.count_none_frontier, List.length_eq_zero_iff, List.filter_eq_nil_iff] at hnone
  intro u hu
  rw [Bool.eq_false_iff]
  intro hfoot
  exact hnone u hu (by rw [hfoot, Tree.isLeaf_iff.2 (hleaf u hu hfoot)]; rfl)

/-- What is derived from an elementary tree has labels. -/
lemma isLabelled_of_derives (hg : g.IsWellFormed) (hmem : (name, alpha) ∈ g.trees)
    (h : g.Derives Stays alpha t) : t.IsLabelled :=
  h.everywhere (P := fun u => u.foot = false → u.label ≠ "") (fun _ _ _ _ hlabel => hlabel)
    (fun _ hnamed => hg.isLabelled _ hnamed) (hg.isLabelled _ hmem)

end TreeAdjoining.Grammar.IsWellFormed

namespace TreeEarley

/-! ### No item without trees -/

/-- What is derived from an auxiliary tree has a foot. -/
lemma exists_foot_of_derives (hg : g.IsWellFormed) (hfeet : g.HasLeafFeet) {aux : String}
    {beta u : Tree} (hmem : (aux, beta) ∈ g.auxiliary) (h : g.Derives g.MayStay beta u) :
    ∃ f w, u.subtreeAt? f = some w ∧ w.foot = true := by
  have hone : u.frontier.count none = 1 := by
    rw [hg.count_none_derives hfeet h, hg.count_none_auxiliary hfeet hmem]
  rw [Tree.count_none_frontier] at hone
  obtain ⟨w, hw⟩ := List.length_pos_iff_exists_mem.1 (hone ▸ Nat.one_pos)
  obtain ⟨hw, hfoot⟩ := List.mem_filter.1 hw
  obtain ⟨⟨f, w⟩, hnode, rfl⟩ := List.mem_map.1 hw
  exact ⟨f, w, Tree.mem_nodes.1 hnode, (Bool.and_eq_true_iff.1 hfoot).1⟩

section Nonempty

variable {Q : Visited → Prop} {R : String → Address → Tree → Prop}

/-- A step from items with trees leads to an item with trees: whatever it joins fits together. -/
theorem ne_nil_of_step (hg : g.IsWellFormed) (hfeet : g.HasLeafFeet)
    (h : IsPreserved g tokens Q R) {ps : List Visited} {q : Visited} (hstep : Step g tokens ps q)
    (hps : ∀ p ∈ ps, p.2 ≠ [] ∧ ∀ t ∈ p.2, Carries g Q R p.1 t) : q.2 ≠ [] := by
  have hfirst : ∀ {p rest}, ps = p :: rest → ∃ t ∈ p.2, Carries g Q R p.1 t := by
    rintro p rest rfl
    obtain ⟨hne, hcarries⟩ := hps p List.mem_cons_self
    exact (List.exists_mem_of_ne_nil _ hne).imp fun t ht => ⟨ht, hcarries t ht⟩
  have hsecond : ∀ {p p' rest}, ps = p :: p' :: rest → ∃ t ∈ p'.2, Carries g Q R p'.1 t := by
    rintro p p' rest rfl
    obtain ⟨hne, hcarries⟩ := hps p' (List.mem_cons_of_mem _ List.mem_cons_self)
    exact (List.exists_mem_of_ne_nil _ hne).imp fun t ht => ⟨ht, hcarries t ht⟩
  cases hstep with
  | scanToken | scanEmpty | goBelow | goDown | goRight | goUp =>
      obtain ⟨t, ht, -⟩ := hfirst rfl
      exact List.ne_nil_of_mem ht
  | beginAuxiliary | beginSite | beginInitial => exact List.cons_ne_nil _ _
  | fillFoot =>
      obtain ⟨t, ht, -⟩ := hsecond rfl
      exact List.ne_nil_of_mem ht
  | closeNode hb =>
      obtain ⟨t, ht, hleft⟩ := hfirst rfl
      obtain ⟨u, hu, hright⟩ := hsecond rfl
      obtain ⟨us, hshows, -⟩ := hleft.shows (c := .leftAbove) rfl
      obtain ⟨xs, hshows', -⟩ := hright.shows (c := .rightBelow) rfl
      cases hshows' with
      | @rightBelow _ _ x hx =>
          obtain ⟨t', ht'⟩ := Tree.exists_replaceOn? x (hshows.subtreeAt?_leftAbove hb)
          exact List.ne_nil_of_mem (Forest.mem_pair.2
            ⟨t, ht, u, hu, Option.bind_eq_some_iff.2 ⟨x, hx, ht'⟩⟩)
  | wrap hadjoin =>
      obtain ⟨u, hu, haround⟩ := hfirst rfl
      obtain ⟨t, ht, hbelow⟩ := hsecond rfl
      obtain ⟨us, hshows, hus, -⟩ := haround.shows (c := .rightAbove) rfl
      obtain ⟨xs, hshows', hxs, -⟩ := hbelow.shows (c := .rightBelow) rfl
      obtain rfl := hshows.eq_of_rightRoot
      obtain ⟨beta, b, hlookup, hb, -, hlabel⟩ := Grammar.isAdjoinable_iff.1 hadjoin
      have hmem := mem_of_lookup_eq_some hlookup
      have hderives := (h.derived _ hus).derives_root (hg.tree?_of_auxiliary hmem).2
      cases hshows' with
      | @rightBelow _ _ x hx =>
          -- the node still has the label of the root of the auxiliary tree
          have hsame : x.label = u.label := by
            rw [((h.derived _ hxs).derives_below rfl hb).label_eq, hlabel, hderives.label_eq]
          obtain ⟨t', ht'⟩ := Tree.exists_adjoinAt?_iff.2
            ⟨⟨x, hx, hsame⟩, exists_foot_of_derives hg hfeet hmem hderives⟩
          exact List.ne_nil_of_mem (Forest.mem_pair.2 ⟨t, ht, u, hu, ht'⟩)
  | fillNode htarget hb hsite hmem hlabel =>
      obtain ⟨u, hu, haround⟩ := hfirst rfl
      obtain ⟨us, hshows, hus, -⟩ := haround.shows (c := .rightAbove) rfl
      obtain rfl := hshows.eq_of_rightRoot
      have hderives := (h.derived _ hus).derives_root (hg.tree?_of_initial hmem).2
      obtain ⟨t', ht'⟩ := Tree.exists_substituteAt?_iff.2
        ⟨_, hb, Tree.isLeaf_iff.2 hsite.1, hlabel.symm.trans hderives.label_eq.symm⟩
      exact List.ne_nil_of_mem (List.mem_filterMap.2 ⟨u, hu, ht'⟩)

/-- So all items of a run have trees. -/
theorem preserves_ne_nil [Weight W] {schema : Schema W} (hg : g.IsWellFormed)
    (hfeet : g.HasLeafFeet) (hschema : Schema.treeEarley g tokens = .ok schema)
    (h : IsPreserved g tokens Q R) :
    schema.Preserves fun x => IsCarrier g tokens Q R x ∧ x.trees ≠ [] := by
  have hcarriers := preserves_isCarrier hg hfeet hschema h
  refine ⟨fun a ha x hx => ⟨ hcarriers.of_axiom a ha x hx, ?_⟩, fun rule hrule xs f hxs hf y hy =>
    ⟨hcarriers.of_fire rule hrule xs f (fun x hx => (hxs x hx).1) hf y hy, ?_⟩,
    fun x y hx hy hxy => ⟨hcarriers.of_merge x y hx.1 hy.1 hxy, ?_⟩⟩
  · obtain ⟨name, alpha, -, -, rfl⟩ := (mem_axioms hschema).1 ⟨a, ha, hx⟩
    exact List.cons_ne_nil _ _
  · obtain ⟨ps, q, hstep, ⟨-, htrees⟩, hps⟩ := exists_step_of_fire hg hschema hrule
      (fun x hx => (hxs x hx).1.imp fun v hv => hv.1) hf hy
    rw [htrees]
    refine ne_nil_of_step hg hfeet h hstep fun p hp => ?_
    obtain ⟨x, hx, hsays, hsame⟩ := hps p hp
    exact hsame ▸ ⟨(hxs x hx).2, (hxs x hx).1.carries hsays⟩
  · -- merging keeps the trees of the first item
    intro hnil
    exact hx.2 (List.prefix_nil.1 (hnil ▸ Forest.prefix_merge x.trees y.trees))

end Nonempty

/-! ### Outcomes -/

/-- Passing parts on leads to parts that have been read, whatever becomes of the parts that the walk
has not passed. -/
lemma isPreserved_isFound (hg : g.IsWellFormed) (hfeet : g.HasLeafFeet)
    (hepsilon : epsilon ∉ g.terminals) :
    IsPreserved g tokens (IsFound g tokens) fun _ _ _ => True where
  derived _ hp := hp.derived
  pass _ _ := isFound_of_pass hg hfeet hepsilon
  elementary _ _ _ _ := trivial
  descend _ _ _ _ _ _ _ _ _ _ := trivial
  replace _ _ _ _ _ _ _ _ _ _ _ _ _ _ _ := trivial

/-- A tree that the walk has passed around the root of an initial tree is derived from it. If it
has begun before the input and ended behind it, the tree spells the input. -/
lemma derives_of_carries (hg : g.IsWellFormed) (hfeet : g.HasLeafFeet) {name : String}
    {alpha t : Tree} (hmem : (name, alpha) ∈ g.initial)
    (h : Carries g (IsFound g tokens) (fun _ _ _ => True)
      (visitAt name .root .rightAbove 0 .absent tokens.length) t) :
    g.Derives g.MayStay alpha t ∧ t.frontier = tokens.map some := by
  obtain ⟨us, hshows, hfound, -⟩ := h.shows (c := .rightAbove) rfl
  obtain rfl := hshows.eq_of_rightRoot
  have hderives := hfound.derived.derives_root (hg.tree?_of_initial hmem).2
  have hread := hfound.read
  rw [List.flatMap_singleton] at hread
  refine ⟨hderives, ?_⟩
  cases hread with
  | found reads => exact reads_iff_map_some.1 reads
  | misread hole =>
      -- there are no feet, so no label of a foot can have been read
      have hnone := hg.count_none_derives hfeet hderives
      rw [hg.count_none_initial hmem] at hnone
      exact absurd hole (List.count_eq_zero.1 hnone)

variable [Weight W]

/-- Where something is derivable, a run has ended with a tree. -/
theorem trees_ne_nil_of_isDerivable (hg : g.IsWellFormed) (hfeet : g.HasLeafFeet)
    (hepsilon : epsilon ∉ g.terminals) {schema : Schema W}
    (hschema : Schema.treeEarley g tokens = .ok schema) {settings : Settings} {fuel : ℕ}
    {o : Outcome W}
    (h : Deduction.run settings schema fuel = .ok o) (ho : o.isDerivable = true) :
    o.trees ≠ [] := by
  obtain ⟨-, hderivable⟩ := Deduction.isLeast_and_isDerivable_iff_of_run
    (isUnweighted_and_isUnambiguous hschema) h
  obtain ⟨goal, hgoal, hform⟩ := hderivable.1 ho
  obtain ⟨s, hs, rfl⟩ := Deduction.run_eq_ok h
  obtain ⟨x, hx, hxform⟩ := Chart.mem_forms_iff.1 hform
  have hne := (Deduction.holds_of_finalState
    (preserves_ne_nil hg hfeet hschema (isPreserved_isFound hg hfeet hepsilon)) hs x hx).2
  obtain ⟨t, ht⟩ := List.exists_mem_of_ne_nil _ hne
  have hindexed := (Deduction.consistent_of_finalState hs).1.indexed
  exact List.ne_nil_of_mem ((Deduction.mem_trees_ofChart hindexed).2
    ⟨x, hx, ⟨goal, hgoal, hxform.symm⟩, ht⟩)

/-- For every grammar that is read from a file, whose feet are leaves and which does not declare the
letter for the empty string as a terminal, and for every input: whenever a run of parsing with trees
from the left has ended, each tree of the outcome has the start symbol at its root, no foot, and
leaves that spell the input, where those for the empty string do not count. It is derived from an
initial tree by substitution and adjunction. -/
theorem treeEarley_trees {file : String} (hread : GrammarFile.readTreeAdjoining file = .ok g)
    (hfeet : g.HasLeafFeet) (hepsilon : epsilon ∉ g.terminals) (tokens : List String) :
    ∃ schema : Schema W, Schema.treeEarley g tokens = .ok schema ∧
      ∀ settings fuel o, Deduction.run settings schema fuel = .ok o → ∀ t ∈ o.trees,
        t.label = g.start ∧ GrammarFile.feet t = [] ∧
        t.leafLabels.filter (· ≠ epsilon) = tokens ∧
        ∃ name alpha, (name, alpha) ∈ g.initial ∧ g.Derives g.MayStay alpha t := by
  have hg := GrammarFile.isWellFormed_of_read hread
  obtain ⟨schema, hschema⟩ : ∃ schema : Schema W, Schema.treeEarley g tokens = .ok schema :=
    ⟨_, rfl⟩
  refine ⟨schema, hschema, fun settings fuel o h t ht => ?_⟩
  obtain ⟨s, hs, rfl⟩ := Deduction.run_eq_ok h
  have hindexed := (Deduction.consistent_of_finalState hs).1.indexed
  obtain ⟨x, hx, hgoal, ht⟩ := (Deduction.mem_trees_ofChart hindexed).1 ht
  obtain ⟨name, alpha, hmem, hstart, hform⟩ := (exists_goal_iff hschema).1 hgoal
  have hpreserves := preserves_isCarrier hg hfeet hschema (isPreserved_isFound hg hfeet hepsilon)
  have hcarrier := Deduction.holds_of_finalState hpreserves hs x hx
  obtain ⟨hderives, hfrontier⟩ := derives_of_carries hg hfeet hmem (hcarrier.carries hform t ht)
  have hplain := hg.everywhere_not_foot hfeet hmem hderives
  refine ⟨hderives.label_eq.trans hstart, List.filter_eq_nil_iff.2 fun u hu => ?_, ?_, name, alpha,
    hmem, hderives⟩
  · simpa using hplain u hu
  · have hlabels := hg.isLabelled_of_derives (List.mem_append_left _ hmem) hderives
    rw [Tree.frontier_eq_map_leafLabels hplain hlabels] at hfrontier
    exact (Option.some_injective _).list_map hfrontier

/-- A run in which a tree fills a leaf and another one adjoins twice ends with such trees. -/
theorem exists_treeEarley_trees_repeat :
    ∃ (schema : Schema Float) (fuel : ℕ) (o : Outcome Float),
      GrammarFile.readTreeAdjoining repeatFile = .ok repeatGrammar ∧ repeatGrammar.HasLeafFeet ∧
      epsilon ∉ repeatGrammar.terminals ∧
      Schema.treeEarley repeatGrammar ["a", "a"] = .ok schema ∧
      Deduction.run ⟨.accumulate, none⟩ schema fuel = .ok o ∧ o.trees ≠ [] ∧
      ∀ t ∈ o.trees, t.label = "S" ∧ GrammarFile.feet t = [] ∧
        t.leafLabels.filter (· ≠ epsilon) = ["a", "a"] ∧
        ∃ name alpha, (name, alpha) ∈ repeatGrammar.initial ∧
          repeatGrammar.Derives repeatGrammar.MayStay alpha t := by
  have hg := GrammarFile.isWellFormed_of_read read_repeatFile
  have hfeet : repeatGrammar.HasLeafFeet := by decide
  have hlabels : HasNonterminals repeatGrammar := by decide
  have hepsilon : epsilon ∉ repeatGrammar.terminals := by decide
  obtain ⟨schema, hschema, htrees⟩ :=
    treeEarley_trees (W := Float) read_repeatFile hfeet hepsilon ["a", "a"]
  obtain ⟨fuel, o, h⟩ := exists_run_of_acyclic hg hfeet acyclic_repeatGrammar hschema
  have hderivable := (isDerivable_iff_of_run hg hfeet hlabels hepsilon hschema h).2 generates_repeat
  exact ⟨schema, fuel, o, read_repeatFile, hfeet, hepsilon, hschema, h,
    trees_ne_nil_of_isDerivable hg hfeet hepsilon hschema h hderivable, htrees _ _ _ h⟩

end TreeEarley

end DeductiveParsing
