/-
Runs of parsing with trees from the left that do not end.

* `TreeEarley.HasLoop`: an auxiliary tree for nothing adjoins into itself beside its foot;
* `TreeEarley.comb`: what stands there after any number of adjunctions;
* `TreeEarley.mem_of_excludes`: none of the trees that arise stays out of a forest for another one,
  since what is below the root of one of them has no foot or no children;
* `TreeEarley.run_treeEarley_ne_ok`: runs do not end, since all of them would come into one forest.
-/
import DeductiveParsing.Proofs.Deduction.Closure
import DeductiveParsing.Proofs.TreeAdjoining.Earley.Parts

namespace DeductiveParsing

open TreeAdjoining

variable {W : Type} {g : Grammar} {tokens : List String} {name aux a start : String}

namespace TreeEarley

/-- What is derived from an inner node is none that has no children. -/
lemma children_ne_nil_of_derives (hg : g.IsWellFormed) (hfeet : g.HasLeafFeet)
    {Stays : Tree → Prop} {t u : Tree} (h : g.Derives Stays t u) (ht : t.children ≠ []) :
    u.children ≠ [] := by
  have hne : ∀ {us : List Tree}, List.Forall₂ (g.Derives Stays) t.children us → us ≠ [] := by
    rintro _ hus rfl
    exact ht (List.forall₂_nil_right_iff.1 hus)
  cases h with
  | stay hleaf => exact absurd hleaf ht
  | substitute hsite => exact absurd hsite.1 ht
  | inner _ hus => exact hne hus
  | @adjoin _ b beta us _ _ hus hmem _ hb =>
      by_cases hchildren : b.children = []
      · -- an auxiliary tree of one node is a foot
        have hone : b.frontier.count none = 1 := by
          rw [hg.count_none_derives hfeet hb, hg.count_none_auxiliary hfeet hmem]
        have hfoot : b.foot = true := by
          by_contra hfoot
          rw [Tree.count_none_frontier_eq_count, Tree.count_eq, hchildren] at hone
          simp [hfoot] at hone
        rw [Tree.atFoot_of_foot _ hchildren hfoot]
        exact hne hus
      · rw [Tree.atFoot_of_children _ hchildren]
        simpa using hchildren

/-! ### What the trees of items have in common -/

/-- Whether a tree has as many holes as the elementary tree with a name, and children if that has
children. -/
def IsAlike (g : Grammar) (name : String) (_ : Address) (t : Tree) : Prop :=
  ∀ tree, g.tree? name = some tree →
    t.frontier.count none = tree.frontier.count none ∧ (tree.children ≠ [] → t.children ≠ [])

/-- All trees of items are alike to the elementary trees that the walk goes around. -/
lemma isPreserved_isAlike (hg : g.IsWellFormed) (hfeet : g.HasLeafFeet) :
    IsPreserved g tokens (IsDerived g) (IsAlike g) where
  derived _ h := h
  pass _ _ := isDerived_of_pass hg hfeet
  elementary name _ t ht tree htree := by
    obtain rfl := Option.some.inj (ht.symm.trans htree)
    exact ⟨rfl, id⟩
  descend _ _ _ _ _ _ _ _ _ h := h
  replace name p a b x z t t' hb _ ht hx hxb hz hreplace tree htree := by
    obtain ⟨hcount, hinner⟩ := ht tree htree
    have hsame : x.frontier.count none = z.frontier.count none := by
      rw [hg.count_none_derives hfeet hz]
      rcases hxb with rfl | hxb
      · rfl
      · exact hg.count_none_derives hfeet hxb
    have hholes := Tree.count_none_replaceOn? hx hreplace
    refine ⟨by omega, fun hchildren => ?_⟩
    refine Tree.children_ne_nil_of_replaceOn? (hinner hchildren) (fun hpath => ?_) hreplace
    -- at the root stands what is derived from the whole elementary tree
    obtain rfl : a = .root := by
      cases a
      exact congrArg Address.mk hpath
    rw [Grammar.node?_root] at hb
    obtain rfl := Option.some.inj (hb.symm.trans htree)
    exact children_ne_nil_of_derives hg hfeet hz hchildren

/-! ### Loops -/

/-- A loop: in an auxiliary tree with the start symbol a node over nothing stands beside the foot,
and has the start symbol too. So the tree adjoins into itself without any token. -/
structure HasLoop (g : Grammar) (aux : String) : Prop where
  hasLeafFeet : g.HasLeafFeet
  start_mem : g.start ∈ g.nonterminals
  starts : ∃ name alpha, (name, alpha) ∈ g.initial ∧ alpha.label = g.start ∧ alpha.children ≠ []
  loops : (aux, .branch g.start [.footLeaf g.start, .branch g.start [.leaf epsilon]]) ∈ g.auxiliary

/-- What stands beside the foot after `k` adjunctions. -/
def comb (a : String) : ℕ → Tree
  | 0 => .branch a [.leaf epsilon]
  | k + 1 => .branch a [.branch a [.leaf epsilon], comb a k]

/-- The auxiliary tree after `k` adjunctions. -/
def grown (a : String) (k : ℕ) : Tree := .branch a [.footLeaf a, comb a k]

lemma comb_injective (a : String) : Function.Injective (comb a) := by
  intro k l h
  induction k generalizing l with
  | zero =>
      cases l with
      | zero => rfl
      | succ l => simp [comb, Tree.branch] at h
  | succ k ih =>
      cases l with
      | zero => simp [comb, Tree.branch] at h
      | succ l =>
          have hchildren := (List.cons.inj (congrArg Tree.children h)).2
          exact congrArg _ (ih (List.cons.inj hchildren).1)

lemma grown_injective (a : String) : Function.Injective (grown a) := by
  intro k l h
  have hchildren := (List.cons.inj (congrArg Tree.children h)).2
  exact comb_injective a (List.cons.inj hchildren).1

/-- Around the node beside the foot the auxiliary tree takes up what is there. -/
lemma adjoinAt?_grown (a : String) (k : ℕ) :
    (grown a 0).adjoinAt? (.child .root 2) (grown a k) = some (grown a (k + 1)) := by
  have hnode : (grown a 0).subtreeAt? (.child .root 2) = some (comb a 0) := rfl
  have hfoot : (grown a k).footAddress? = some (.child .root 1) := rfl
  have hlabel : ((grown a k).label == (comb a 0).label) = true := beq_self_eq_true a
  rw [Tree.adjoinAt?, hnode, hfoot]
  simp only [Option.bind_eq_bind, Option.bind_some, hlabel, if_true]
  rfl

lemma frontier_comb (a : String) (k : ℕ) : (comb a k).frontier = [] := by
  have hnothing : (Tree.branch a [.leaf epsilon]).frontier = [] := by
    rw [Tree.frontier_of_children (List.cons_ne_nil _ _)]
    rfl
  induction k with
  | zero => exact hnothing
  | succ k ih =>
      rw [comb, Tree.frontier_of_children (List.cons_ne_nil _ _)]
      show List.flatMap Tree.frontier [.branch a [.leaf epsilon], comb a k] = []
      rw [List.flatMap_cons, hnothing, List.flatMap_singleton, ih]
      rfl

/-- No tree with one hole and with children occurs below the root of such a tree, so that none stays
out of a forest of those. -/
lemma mem_of_excludes {forest : List Tree} {k : ℕ}
    (hforest : ∀ t ∈ forest, t.frontier.count none = 1 ∧ t.children ≠ [])
    (h : Forest.excludes forest (grown a k) = true) : grown a k ∈ forest := by
  refine Forest.mem_of_excludes h fun t ht => Tree.hasProperSubtree_eq_false_iff.2 ?_
  obtain ⟨hone, hinner⟩ := hforest t ht
  intro c hc hmem
  rcases List.mem_pair.1 hc with rfl | rfl
  · -- the foot has no subtrees but itself
    exact hinner (congrArg Tree.children (Tree.eq_of_mem_nodes rfl hmem))
  · have hcount := (Tree.frontier_sublist_of_mem_nodes hmem).count_le none
    rw [frontier_comb, List.count_nil] at hcount
    exact absurd (hone.symm.trans_le hcount) (by decide)

/-! ### The chart behind a loop -/

/-- Whether a tree is in the forest of the item that says something. -/
def Has (c : Chart W) (v : NodeVisit) (t : Tree) : Prop :=
  ∃ x ∈ c.items, x.form = v.form ∧ t ∈ x.trees

/-- What the walk says at a station of the auxiliary tree that has read no token. -/
abbrev visitLoop (aux : String) (p : Address) (c : Corner) (gap : Gap) : NodeVisit :=
  visitAt aux p c 0 gap 0

/-- The gap of a foot that has been filled with nothing. -/
abbrev gapLoop : Gap := ⟨some 0, some 0⟩

section Loop

variable [Weight W] {schema : Schema W} {limit : Option ℕ} {fuel : ℕ} {s : Deduction.State W}
  {v w : NodeVisit} {t u : Tree} {k : ℕ}

lemma HasLoop.tree? (hg : g.IsWellFormed) (hloop : HasLoop g aux) :
    g.tree? aux = some (grown g.start 0) :=
  (hg.tree?_of_auxiliary hloop.loops).2

lemma HasLoop.node? (hg : g.IsWellFormed) (hloop : HasLoop g aux) {p : Address}
    (h : (grown g.start 0).subtreeAt? p = some t) : g.node? aux p = some t :=
  Grammar.node?_eq_some_iff.2 ⟨_, hloop.tree? hg, h⟩

lemma HasLoop.node?_eq_none (hg : g.IsWellFormed) (hloop : HasLoop g aux) {p : Address}
    (h : (grown g.start 0).subtreeAt? p = none) : g.node? aux p = none := by
  rw [Grammar.node?, hloop.tree? hg]
  exact h

/-- The auxiliary tree adjoins at all inner nodes with the start symbol. -/
lemma HasLoop.isAdjoinable (hg : g.IsWellFormed) (hloop : HasLoop g aux) {p : Address}
    (ht : g.node? name p = some t) (hinner : t.children ≠ []) (hlabel : t.label = g.start) :
    g.isAdjoinable aux name p = true :=
  Grammar.isAdjoinable_iff.2 ⟨_, t, (hg.tree?_of_auxiliary hloop.loops).1, ht, hinner, hlabel⟩

variable (hg : g.IsWellFormed) (hloop : HasLoop g aux)
  (hschema : Schema.treeEarley g tokens = .ok schema)
  (hs : Deduction.finalState ⟨.accumulate, limit⟩ schema fuel = .ok s)
include hg hloop hschema hs

/-- At the end of a run, the auxiliary tree after any number of adjunctions is in the forest of
every item that a step leads to with it. -/
lemma has_grown_of_step {ps : List Visited} {us : List Tree}
    (hstep : Step g tokens ps (w, us)) {xs : List (Item W)} (hxs : List.Forall₂ Says xs ps)
    (hmem : ∀ x ∈ xs, x ∈ s.chart.items) (htree : w.tree = aux) (hk : grown g.start k ∈ us) :
    Has s.chart w (grown g.start k) := by
  obtain ⟨z, hz, hform, hkeeps⟩ := exists_keeps_of_step hg hschema hs hstep hxs hmem
  have hcarrier := Deduction.holds_of_finalState
    (preserves_isCarrier hg hloop.hasLeafFeet hschema (isPreserved_isAlike hg hloop.hasLeafFeet))
    hs z hz
  refine ⟨z, hz, hform, mem_of_excludes (fun t ht => ?_) (hkeeps _ hk)⟩
  obtain ⟨_, _, -, -, -, halike⟩ := hcarrier.carries hform t ht
  rw [htree] at halike
  obtain ⟨hcount, hinner⟩ := halike _ (hloop.tree? hg)
  exact ⟨hcount.trans (hg.count_none_auxiliary hloop.hasLeafFeet hloop.loops),
    hinner (List.cons_ne_nil _ _)⟩

lemma Has.one (h : Has s.chart v t) (htree : w.tree = aux)
    (hstep : ∀ ts, t ∈ ts → ∃ us, Step g tokens [(v, ts)] (w, us) ∧ grown g.start k ∈ us) :
    Has s.chart w (grown g.start k) := by
  obtain ⟨x, hx, hform, ht⟩ := h
  obtain ⟨us, hstep, hk⟩ := hstep _ ht
  exact has_grown_of_step hg hloop hschema hs hstep (.cons ⟨hform, rfl⟩ .nil) (by simpa using hx)
    htree hk

lemma Has.two {v' : NodeVisit} (h : Has s.chart v t) (h' : Has s.chart v' u) (htree : w.tree = aux)
    (hstep : ∀ ts us, t ∈ ts → u ∈ us →
      ∃ ws, Step g tokens [(v, ts), (v', us)] (w, ws) ∧ grown g.start k ∈ ws) :
    Has s.chart w (grown g.start k) := by
  obtain ⟨x, hx, hform, ht⟩ := h
  obtain ⟨y, hy, hform', hu⟩ := h'
  obtain ⟨ws, hstep, hk⟩ := hstep _ _ ht hu
  exact has_grown_of_step hg hloop hschema hs hstep (.cons ⟨hform, rfl⟩ (.cons ⟨hform', rfl⟩ .nil))
    (by simp [hx, hy]) htree hk

/-- The walk begins above the root of the auxiliary tree. -/
lemma has_root : Has s.chart (visitLoop aux .root .leftAbove .absent) (grown g.start 0) := by
  obtain ⟨name, alpha, hmem, hlabel, hinner⟩ := hloop.starts
  have hclosed := Deduction.isClosed_forms_of_finalState
    (isUnweighted_and_isUnambiguous hschema) hs
  obtain ⟨b, hb, hx⟩ := (mem_axioms (W := W) hschema).2 ⟨name, alpha, hmem, hlabel, rfl⟩
  obtain ⟨x, hx, hform⟩ := Chart.mem_forms_iff.1 (hclosed.axioms_mem b hb _ hx)
  have hroot := (g.node?_root name).trans (hg.tree?_of_initial hmem).2
  exact has_grown_of_step hg hloop hschema hs
    (.beginAuxiliary hloop.loops (hloop.isAdjoinable hg hroot hinner hlabel))
    (.cons ⟨hform, rfl⟩ .nil) (by simpa using hx) rfl (List.mem_singleton_self _)

/-- It comes to the foot, which stands in the first place. -/
lemma has_foot : Has s.chart (visitLoop aux (.child .root 1) .leftAbove .absent)
    (grown g.start 0) := by
  have hroot : g.node? aux .root = some (grown g.start 0) := hloop.node? hg rfl
  have hfoot : g.node? aux (.child .root 1) = some (.footLeaf g.start) := hloop.node? hg rfl
  have hbelow : Has s.chart (visitLoop aux .root .leftBelow .absent) (grown g.start 0) :=
    (has_root hg hloop hschema hs).one hg hloop hschema hs rfl fun ts ht =>
      ⟨ts, .goBelow hroot hloop.start_mem fun hsite => List.cons_ne_nil _ _ hsite.1, ht⟩
  exact hbelow.one hg hloop hschema hs rfl fun ts ht => ⟨ts, .goDown (by rw [hfoot]; rfl), ht⟩

/-- From below the foot it comes to the node over nothing, since the tree adjoins there. -/
lemma has_openFoot : Has s.chart (visitLoop aux (.child .root 1) .leftBelow .absent)
    (grown g.start 0) := by
  have hfoot : g.node? aux (.child .root 1) = some (.footLeaf g.start) := hloop.node? hg rfl
  exact (has_foot hg hloop hschema hs).one hg hloop hschema hs rfl fun ts ht =>
    ⟨ts, .goBelow hfoot hloop.start_mem fun hsite => Bool.noConfusion hsite.2.1, ht⟩

/-- The walk comes around what is below the node over nothing. -/
lemma has_nothing : Has s.chart (visitLoop aux (.child .root 2) .rightBelow .absent)
    (grown g.start 0) := by
  have hnode : g.node? aux (.child .root 2) = some (.branch g.start [.leaf epsilon]) :=
    hloop.node? hg rfl
  have hleaf : g.node? aux (.child (.child .root 2) 1) = some (.leaf epsilon) :=
    hloop.node? hg rfl
  have hfoot : g.foot? aux = some (.child .root 1) :=
    hg.foot?_eq_some_iff.2 ⟨.footLeaf g.start, hloop.node? hg rfl, rfl⟩
  have hadjoin := hloop.isAdjoinable hg hnode (List.cons_ne_nil _ _) rfl
  have hbelow : Has s.chart (visitLoop aux (.child .root 2) .leftBelow .absent)
      (grown g.start 0) :=
    (has_openFoot hg hloop hschema hs).one hg hloop hschema hs rfl fun ts _ =>
      ⟨_, .beginSite hfoot hadjoin (hloop.tree? hg), List.mem_singleton_self _⟩
  have hbefore : Has s.chart (visitLoop aux (.child (.child .root 2) 1) .leftAbove .absent)
      (grown g.start 0) :=
    hbelow.one hg hloop hschema hs rfl fun ts ht => ⟨ts, .goDown (by rw [hleaf]; rfl), ht⟩
  have hbehind : Has s.chart (visitLoop aux (.child (.child .root 2) 1) .rightAbove .absent)
      (grown g.start 0) :=
    hbefore.one hg hloop hschema hs rfl fun ts ht => ⟨ts, .scanEmpty hleaf rfl, ht⟩
  exact hbehind.one hg hloop hschema hs rfl fun ts ht =>
    ⟨ts, .goUp (hloop.node?_eq_none hg rfl), ht⟩

/-- The foot takes that up, and the walk goes on to its sibling. -/
lemma has_sibling : Has s.chart (visitLoop aux (.child .root 2) .leftAbove gapLoop)
    (grown g.start 0) := by
  have hnode : g.node? aux (.child .root 2) = some (.branch g.start [.leaf epsilon]) :=
    hloop.node? hg rfl
  have hleaf : g.node? aux (.child .root 1) = some (.footLeaf g.start) := hloop.node? hg rfl
  have hfoot : g.foot? aux = some (.child .root 1) := hg.foot?_eq_some_iff.2 ⟨_, hleaf, rfl⟩
  have hadjoin := hloop.isAdjoinable hg hnode (List.cons_ne_nil _ _) rfl
  have hfilled : Has s.chart (visitLoop aux (.child .root 1) .rightBelow gapLoop)
      (grown g.start 0) :=
    (has_nothing hg hloop hschema hs).two hg hloop hschema hs (has_openFoot hg hloop hschema hs)
      rfl fun ts us _ hu => ⟨us, .fillFoot hfoot hadjoin, hu⟩
  have hclosed : Has s.chart (visitLoop aux (.child .root 1) .rightAbove gapLoop)
      (grown g.start 0) :=
    (has_foot hg hloop hschema hs).two hg hloop hschema hs hfilled rfl fun ts us ht hu =>
      ⟨_, .closeNode hleaf hloop.start_mem (Gap.join?_absent_left _),
        Forest.mem_pair.2 ⟨_, ht, _, hu, rfl⟩⟩
  exact hclosed.one hg hloop hschema hs rfl fun ts ht =>
    ⟨ts, .goRight (Option.isSome_iff_exists.2 ⟨_, hnode⟩), ht⟩

/-- What is found below the node over nothing leads around the whole tree. -/
lemma has_around {adjoined : Bool}
    (h : Has s.chart ⟨aux, .child .root 2, Corner.rightBelow.text, 0, .absent, 0, adjoined⟩
      (grown g.start k)) :
    Has s.chart (visitLoop aux .root .rightAbove gapLoop) (grown g.start k) := by
  have hnode : g.node? aux (.child .root 2) = some (.branch g.start [.leaf epsilon]) :=
    hloop.node? hg rfl
  have hroot : g.node? aux .root = some (grown g.start 0) := hloop.node? hg rfl
  have hclosed : Has s.chart (visitLoop aux (.child .root 2) .rightAbove gapLoop)
      (grown g.start k) :=
    (has_sibling hg hloop hschema hs).two hg hloop hschema hs h rfl fun ts us ht hu =>
      ⟨_, .closeNode hnode hloop.start_mem (Gap.join?_absent_right _),
        Forest.mem_pair.2 ⟨_, ht, _, hu, rfl⟩⟩
  have hbelow : Has s.chart (visitLoop aux .root .rightBelow gapLoop) (grown g.start k) :=
    hclosed.one hg hloop hschema hs rfl fun ts ht =>
      ⟨ts, .goUp (hloop.node?_eq_none hg rfl), ht⟩
  exact (has_root hg hloop hschema hs).two hg hloop hschema hs hbelow rfl fun ts us ht hu =>
    ⟨_, .closeNode hroot hloop.start_mem (Gap.join?_absent_left _),
      Forest.mem_pair.2 ⟨_, ht, _, hu, rfl⟩⟩

/-- Around the auxiliary tree the walk comes with any number of adjunctions. -/
lemma has_grown (k : ℕ) :
    Has s.chart (visitLoop aux .root .rightAbove gapLoop) (grown g.start k) := by
  have hnode : g.node? aux (.child .root 2) = some (.branch g.start [.leaf epsilon]) :=
    hloop.node? hg rfl
  have hadjoin := hloop.isAdjoinable hg hnode (List.cons_ne_nil _ _) rfl
  induction k with
  | zero => exact has_around hg hloop hschema hs (has_nothing hg hloop hschema hs)
  | succ k ih =>
      exact has_around hg hloop hschema hs
        (ih.two hg hloop hschema hs (has_nothing hg hloop hschema hs) rfl fun us ts hu ht =>
          ⟨_, .wrap hadjoin, Forest.mem_pair.2 ⟨_, ht, _, hu, adjoinAt?_grown _ k⟩⟩)

end Loop

/-- For every grammar with a loop and every input: runs of parsing with trees from the left that
keep all derivations do not end, however many steps are allowed. The trees of the item around the
auxiliary tree have the foot, and beside it what any number of adjunctions of the tree into itself
leave there. None of them occurs in another one. -/
theorem run_treeEarley_ne_ok [Weight W] (hg : g.IsWellFormed) (hloop : HasLoop g aux)
    {schema : Schema W} (hschema : Schema.treeEarley g tokens = .ok schema) (limit : Option ℕ)
    (fuel : ℕ) (o : Outcome W) : Deduction.run ⟨.accumulate, limit⟩ schema fuel ≠ .ok o := by
  intro h
  obtain ⟨s, hs, -⟩ := Deduction.run_eq_ok h
  obtain ⟨x, hx, hform, -⟩ := has_grown hg hloop hschema hs 0
  have hgrown : ∀ k, grown g.start k ∈ x.trees := by
    intro k
    obtain ⟨y, hy, hyform, hk⟩ := has_grown hg hloop hschema hs k
    obtain rfl := (Deduction.consistent_of_finalState hs).1.indexed.eq_of_items hx hy
      (hform.trans hyform.symm)
    exact hk
  -- but a forest is finite
  exact Set.infinite_range_of_injective (grown_injective g.start)
    ((List.finite_toSet x.trees).subset (Set.range_subset_iff.2 hgrown))

/-- A file with an initial tree over nothing and a loop. -/
def loopFile : String :=
  "N = \x7b\"A\"\x7d\nT = \x7b\x7d\nS = \"A\"\nI = \x7b\"α : (A ε)\"\x7d\n" ++
    "A = \x7b\"β : (A A* (A ε))\"\x7d\n"

/-- The grammar in that file. -/
def loopGrammar : Grammar :=
  ⟨["A"], [], "A", [("α", .branch "A" [.leaf "ε"])],
    [("β", .branch "A" [.footLeaf "A", .branch "A" [.leaf "ε"]])]⟩

lemma read_loopFile : GrammarFile.readTreeAdjoining loopFile = .ok loopGrammar := by
  decide +kernel

lemma hasLoop_loopGrammar : HasLoop loopGrammar "β" where
  hasLeafFeet := by decide
  start_mem := by decide
  starts := ⟨"α", _, List.mem_cons_self, rfl, List.cons_ne_nil _ _⟩
  loops := List.mem_cons_self

/-- Runs on no tokens at all do not end, although the auxiliary tree is for nothing too. -/
theorem run_treeEarley_ne_ok_loop :
    GrammarFile.readTreeAdjoining loopFile = .ok loopGrammar ∧ loopGrammar.HasLeafFeet ∧
    ∃ schema : Schema Float, Schema.treeEarley loopGrammar [] = .ok schema ∧
      ∀ fuel o, Deduction.run ⟨.accumulate, none⟩ schema fuel ≠ .ok o := by
  obtain ⟨schema, hschema⟩ : ∃ schema : Schema Float,
      Schema.treeEarley loopGrammar [] = .ok schema := ⟨_, rfl⟩
  exact ⟨read_loopFile, hasLoop_loopGrammar.hasLeafFeet, schema, hschema,
    run_treeEarley_ne_ok (GrammarFile.isWellFormed_of_read read_loopFile) hasLoop_loopGrammar
      hschema none⟩

end TreeEarley

end DeductiveParsing
