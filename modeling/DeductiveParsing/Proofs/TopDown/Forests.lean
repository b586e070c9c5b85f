/-
The trees that top-down parsing finds for all grammars without empty productions and cycles.

* `TopDown.transGen_leadsTo_of_mem_nodes`: a partial tree leads to the subtrees that are as wide;
* `TopDown.everywhere_isRuleNode`: a partial tree without open leaves for nonterminals consists of
  rules;
* `TopDown.IsSound`: the trees of an item spell the tokens that have been read and the symbols that
  are still to be found;
* `TopDown.exists_item_of_spells`: symbols that are still to be found are read off, and the trees
  for them grow at their places in a parse tree;
* `TopDown.mem_trees_iff`: the trees of an outcome are exactly the parse trees.
-/
import DeductiveParsing.Proofs.ContextFree.ParseTrees
import DeductiveParsing.Proofs.Deduction.Closure
import DeductiveParsing.Proofs.TopDown.Termination
import DeductiveParsing.Proofs.Tree.Filling

namespace DeductiveParsing.TopDown

open ContextFree Grammar Relation Rewriting

variable {W : Type} {g : Grammar} {tokens before behind w : List String} {p : Production}
  {a b : String} {t t' u c : Tree} {cs ts us vs : List Tree} {stack : List String} {i : ℕ}
  {x y z : Item W} {f : Firing W} {symbols : List Symbol}

/-! ### Partial trees and what they lead to -/

/-- Names that lead to a nonterminal derive it. -/
lemma transGen_step_of_leadsTo (hg : g.IsWellFormed)
    (hlhs : ∀ p ∈ g.productions, p.lhs ∈ g.nonterminals) (hb : b ∈ g.nonterminals)
    (h : TransGen (LeadsTo g) a b) :
    TransGen (Step g.Replaces) [.nonterminal a] [.nonterminal b] := by
  have hstep : ∀ {a b}, b ∈ g.nonterminals → LeadsTo g a b →
      Step g.Replaces [.nonterminal a] [.nonterminal b] := by
    rintro a b hb ⟨p, hp, rfl, hnames⟩
    obtain ⟨s, hs, rfl⟩ := List.map_eq_singleton_iff.1 hnames
    have hreplace := Step.replace [] [] (Replaces.of_mem hp)
    rw [List.nil_append, List.append_nil, hs] at hreplace
    cases s with
    | nonterminal a => exact hreplace
    | terminal a => exact absurd hb (hg.not_mem_nonterminals hp (hs ▸ List.mem_singleton_self _))
  induction h with
  | single h => exact .single (hstep hb h)
  | tail _ h ih =>
      obtain ⟨p, hp, rfl, -⟩ := id h
      exact (ih (hlhs p hp)).tail (hstep hb h)

/-- Without cycles no name leads to itself. -/
lemma not_leadsTo_self (hg : g.IsWellFormed)
    (hlhs : ∀ p ∈ g.productions, p.lhs ∈ g.nonterminals) (hacyclic : g.IsAcyclic) (a : String) :
    ¬TransGen (LeadsTo g) a a := by
  intro h
  obtain ⟨_, ⟨p, hp, rfl, -⟩, -⟩ := TransGen.head'_iff.1 h
  exact hacyclic p.lhs (hlhs p hp) (transGen_step_of_leadsTo hg hlhs (hlhs p hp) h)

/-- The children of a partial tree stand for symbols of a production. -/
lemma exists_symbol_of_mem_children (ht : IsPartial g t) (hc : c ∈ t.children) :
    IsPartial g c ∧ ∃ p ∈ g.productions, t.label = p.lhs ∧ c.label ∈ p.rhsNames := by
  obtain ⟨⟨-, hroot⟩, hchildren⟩ := Tree.everywhere_iff.1 ht
  obtain ⟨p, hp, hlabel, hnames⟩ := hroot.resolve_left (List.ne_nil_of_mem hc)
  exact ⟨hchildren c hc, p, hp, hlabel, hnames ▸ List.mem_map_of_mem hc⟩

lemma named_of_mem_rhsNames (hg : g.IsWellFormed) (hp : p ∈ g.productions)
    (ha : a ∈ p.rhsNames) : a ≠ epsilon ∧ a ≠ "" := by
  obtain ⟨s, hs, rfl⟩ := List.mem_map.1 ha
  exact hg.named p hp s hs

/-- A leaf of a partial tree that does not stand for the empty string is open. -/
lemma isOpen_of_isPartial (ht : IsPartial g t) (hleaf : t.children = [])
    (hlabel : t.label ≠ epsilon ∧ t.label ≠ "") : t.isOpen = true :=
  Tree.isOpen_iff.2 ⟨hleaf, (Tree.everywhere_iff.1 ht).1.1, hlabel⟩

/-- Partial trees have leaves. -/
lemma one_le_length_frontier (hg : g.IsWellFormed) (ht : IsPartial g t)
    (hlabel : t.label ≠ epsilon ∧ t.label ≠ "") : 1 ≤ t.frontier.length := by
  induction t using Tree.ind with
  | h label foot children ih =>
      cases children with
      | nil =>
          rw [Tree.frontier_of_isOpen (isOpen_of_isPartial ht rfl hlabel), List.length_singleton]
      | cons c cs =>
          obtain ⟨hc, p, hp, -, hname⟩ := exists_symbol_of_mem_children ht List.mem_cons_self
          have hlength := ih c List.mem_cons_self hc (named_of_mem_rhsNames hg hp hname)
          rw [Tree.frontier_of_children (List.cons_ne_nil c cs), List.flatMap_cons,
            List.length_append]
          omega

/-- A partial tree leads to a child that is as wide. -/
lemma leadsTo_of_mem_children (hg : g.IsWellFormed) (ht : IsPartial g t) (hc : c ∈ t.children)
    (hwide : t.frontier.length ≤ c.frontier.length) : LeadsTo g t.label c.label := by
  have hlength : ∀ d ∈ t.children, 1 ≤ d.frontier.length := fun d hd => by
    obtain ⟨hd, p, hp, -, hname⟩ := exists_symbol_of_mem_children ht hd
    exact one_le_length_frontier hg hd (named_of_mem_rhsNames hg hp hname)
  have hle : ∀ ds : List Tree, (∀ d ∈ ds, 1 ≤ d.frontier.length) →
      ds.length ≤ (ds.flatMap Tree.frontier).length := by
    intro ds hds
    induction ds with
    | nil => exact Nat.zero_le _
    | cons d ds ih =>
        obtain ⟨hd, hds⟩ := List.forall_mem_cons.1 hds
        have hlength := ih hds
        rw [List.flatMap_cons, List.length_append, List.length_cons]
        omega
  obtain ⟨left, right, hsplit⟩ := List.append_of_mem hc
  rw [Tree.frontier_of_children (List.ne_nil_of_mem hc)] at hwide
  rw [hsplit] at hlength hwide
  have hleft := hle left fun d hd => hlength d (List.mem_append_left _ hd)
  have hright := hle right fun d hd =>
    hlength d (List.mem_append_right _ (List.mem_cons_of_mem _ hd))
  rw [List.flatMap_append, List.flatMap_cons, List.length_append, List.length_append] at hwide
  obtain rfl : left = [] := List.length_eq_zero_iff.1 (by omega)
  obtain rfl : right = [] := List.length_eq_zero_iff.1 (by omega)
  obtain ⟨⟨-, hroot⟩, -⟩ := Tree.everywhere_iff.1 ht
  obtain ⟨p, hp, hlabel, hnames⟩ := hroot.resolve_left (List.ne_nil_of_mem hc)
  rw [hsplit] at hnames
  exact ⟨p, hp, hlabel.symm, hnames.symm⟩

/-- A partial tree leads to every subtree below its root that is as wide. -/
lemma transGen_leadsTo_of_mem_nodes (hg : g.IsWellFormed) (ht : IsPartial g t)
    (hc : c ∈ t.children) (hu : u ∈ c.nodes.map Prod.snd)
    (hwide : t.frontier.length ≤ u.frontier.length) :
    TransGen (LeadsTo g) t.label u.label := by
  induction t using Tree.ind generalizing c with
  | h label foot children ih =>
      have hle := (Tree.frontier_sublist_of_mem_nodes hu).length_le
      have hchild := (Tree.frontier_sublist_of_mem_children hc).length_le
      have hstep := leadsTo_of_mem_children hg ht hc (hwide.trans hle)
      have hpartial := (exists_symbol_of_mem_children ht hc).1
      rcases Tree.mem_map_snd_nodes.1 hu with rfl | ⟨d, hd, hu⟩
      · exact .single hstep
      · exact .head hstep (ih c hc hpartial hd hu (hchild.trans hwide))

/-- If no name leads to itself, no partial tree occurs below the root of another one that has the
same label and is not wider. -/
lemma not_hasProperSubtree (hg : g.IsWellFormed) (hloop : ∀ a, ¬TransGen (LeadsTo g) a a)
    (ht : IsPartial g t) (hlabel : u.label = t.label)
    (hwide : t.frontier.length ≤ u.frontier.length) : t.hasProperSubtree u = false := by
  refine Tree.hasProperSubtree_eq_false_iff.2 fun c hc hu => ?_
  have hleads := transGen_leadsTo_of_mem_nodes hg ht hc hu hwide
  rw [hlabel] at hleads
  exact hloop _ hleads

/-- If no name leads to itself, a partial tree with children is not an open leaf of its own. -/
lemma frontier_ne_singleton (hg : g.IsWellFormed) (hloop : ∀ a, ¬TransGen (LeadsTo g) a a)
    (ht : IsPartial g t) (hinner : t.children ≠ []) : t.frontier ≠ [some t.label] := by
  intro h
  have hmem : some t.label ∈ t.frontier := h ▸ List.mem_singleton_self _
  obtain ⟨a, ha⟩ := Option.ne_none_iff_exists'.1
    (mt Tree.find?_isOpen_eq_none_iff.1 (not_not.2 hmem))
  obtain ⟨u, hu, hopen⟩ := Tree.exists_of_find? ha
  rw [Bool.and_eq_true, beq_iff_eq] at hopen
  have hnode : u ∈ t.nodes.map Prod.snd := List.mem_map.2 ⟨(a, u), Tree.mem_nodes.2 hu, rfl⟩
  have hwide : t.frontier.length ≤ u.frontier.length := by
    rw [h, Tree.frontier_of_isOpen hopen.1]
    rfl
  have hnone := not_hasProperSubtree hg hloop ht hopen.2 hwide
  rcases Tree.mem_map_snd_nodes.1 hnode with rfl | ⟨c, hc, hnode⟩
  · exact hinner (Tree.children_eq_nil_of_isOpen hopen.1)
  · exact Tree.hasProperSubtree_eq_false_iff.1 hnone c hc hnode

/-- A partial tree with the name of a symbol stands for it, if it has no open leaves for
nonterminals. -/
lemma standsFor_of_isPartial (hg : g.IsWellFormed)
    (hlhs : ∀ p ∈ g.productions, p.lhs ∈ g.nonterminals) (hp : p ∈ g.productions) {s : Symbol}
    (hs : s ∈ p.rhs) (ht : IsPartial g t) (hname : t.label = s.name)
    (hfrontier : ∀ a, some a ∈ t.frontier → a ∉ g.nonterminals) : StandsFor s t := by
  refine ⟨hname, ?_⟩
  cases s with
  | terminal a =>
      refine iff_of_true ?_ rfl
      -- an inner node has the name of a nonterminal
      by_contra hinner
      obtain ⟨q, hq, hlabel, -⟩ := (Tree.everywhere_iff.1 ht).1.2.resolve_left hinner
      refine hg.not_mem_nonterminals hp hs ?_
      rw [show a = q.lhs from hname.symm.trans hlabel]
      exact hlhs q hq
  | nonterminal a =>
      refine iff_of_false (fun hleaf => ?_) Bool.false_ne_true
      have hopen := isOpen_of_isPartial ht hleaf (hname ▸ hg.named p hp _ hs)
      refine hfrontier a ?_ (hg.mem_nonterminals hp hs)
      rw [Tree.frontier_of_isOpen hopen, hname]
      exact List.mem_singleton_self _

/-- A partial tree without open leaves for nonterminals consists of rules. -/
lemma everywhere_isRuleNode (hg : g.IsWellFormed)
    (hlhs : ∀ p ∈ g.productions, p.lhs ∈ g.nonterminals) (hempty : g.hasEmptyProduction = false)
    (ht : IsPartial g t) (hfrontier : ∀ a, some a ∈ t.frontier → a ∉ g.nonterminals) :
    t.Everywhere g.IsRuleNode := by
  induction t using Tree.ind with
  | h label foot children ih =>
      obtain ⟨⟨hfoot, hroot⟩, hchildren⟩ := Tree.everywhere_iff.1 ht
      have hbelow : ∀ c ∈ children, ∀ a, some a ∈ c.frontier → a ∉ g.nonterminals := by
        intro c hc a ha
        refine hfrontier a ?_
        rw [Tree.frontier_of_children (t := ⟨label, foot, children⟩) (List.ne_nil_of_mem hc)]
        exact List.mem_flatMap.2 ⟨c, hc, ha⟩
      refine Tree.everywhere_iff.2 ⟨⟨hfoot, fun hinner => ?_⟩, fun c hc =>
        ih c hc (hchildren c hc) (hbelow c hc)⟩
      obtain ⟨p, hp, hlabel, hnames⟩ := hroot.resolve_left hinner
      refine ⟨p, hp, hlabel, ?_⟩
      rw [if_neg (rhs_ne_nil hempty hp)]
      have hrow : List.Forall₂ (fun s (c : Tree) => c.label = s.name) p.rhs children := by
        rw [Production.rhsNames, ← List.forall₂_eq_eq_eq, List.forall₂_map_left_iff,
          List.forall₂_map_right_iff] at hnames
        exact hnames.flip
      rw [List.forall₂_iff_zip] at hrow ⊢
      refine ⟨hrow.1, fun {s c} hmem => ?_⟩
      obtain ⟨hs, hc⟩ := List.of_mem_zip hmem
      exact standsFor_of_isPartial hg hlhs hp hs (hchildren c hc) (hrow.2 hmem) (hbelow c hc)

/-! ### What items carry -/

/-- What items carry: at first nothing, and then partial trees over the start symbol that spell the
tokens that have been read and the names that are still to be found. -/
def IsSound (g : Grammar) (tokens : List String) (x : Item W) : Prop :=
  ∃ stack i, x.form = form stack i ∧ i ≤ tokens.length ∧
    (x.trees = [] → stack = [] ∨ (stack = [g.start] ∧ i = 0)) ∧
      ∀ t ∈ x.trees, IsPartial g t ∧ t.label = g.start ∧ t.children ≠ [] ∧
        t.frontier = (tokens.take i ++ stack).map some

/-- What is known of an item whose form is known. -/
lemma IsSound.of_form (h : IsSound g tokens x) (hx : x.form = form stack i) :
    i ≤ tokens.length ∧ (x.trees = [] → stack = [] ∨ (stack = [g.start] ∧ i = 0)) ∧
      ∀ t ∈ x.trees, IsPartial g t ∧ t.label = g.start ∧ t.children ≠ [] ∧
        t.frontier = (tokens.take i ++ stack).map some := by
  obtain ⟨stack', i', hform, h⟩ := h
  obtain ⟨rfl, rfl⟩ := form_injective (hform.symm.trans hx)
  exact h

lemma IsSound.merge (hx : IsSound g tokens x) (hy : IsSound g tokens y) (h : x.form = y.form) :
    IsSound g tokens { x with trees := Forest.merge x.trees y.trees } := by
  obtain ⟨stack, i, hform, hi, hnil, htrees⟩ := hx
  have htrees' := (hy.of_form (h.symm.trans hform)).2.2
  refine ⟨stack, i, hform, hi, fun hmerge => hnil ?_, fun t ht =>
    (Forest.mem_merge ht).elim (htrees t) (htrees' t)⟩
  exact List.prefix_nil.1 (hmerge ▸ Forest.prefix_merge x.trees y.trees)

lemma IsSound.scan (hx : IsSound g tokens x)
    (h : TopDownRule.fire (.scan tokens) [x] = some f) : ∀ y ∈ f.items, IsSound g tokens y := by
  obtain ⟨stack, i, hform, -, hnil, htrees⟩ := hx
  obtain ⟨top, rest, rfl, htoken, hitems⟩ := scan_eq_some hform h
  intro y hy
  rw [hitems, List.mem_singleton] at hy
  subst hy
  obtain ⟨hi, rfl⟩ := List.getElem?_eq_some_iff.1 htoken
  refine ⟨rest, i + 1, rfl, hi, fun hempty => Or.inl ?_, fun t ht => ?_⟩
  · rcases hnil hempty with hstack | ⟨hstack, -⟩
    · cases hstack
    · exact (List.cons.inj hstack).2
  · obtain ⟨hpartial, hlabel, hinner, hfrontier⟩ := htrees t ht
    refine ⟨hpartial, hlabel, hinner, ?_⟩
    rw [hfrontier, List.take_succ_eq_append_getElem hi, List.append_assoc]
    rfl

lemma frontier_ofProduction (hg : g.IsWellFormed) (hp : p ∈ g.productions) :
    (Tree.ofProduction p).frontier = p.rhsNames.map some := by
  have hleaves : ∀ symbols : List Symbol, (∀ s ∈ symbols, s.name ≠ epsilon ∧ s.name ≠ "") →
      (Tree.leaves symbols).flatMap Tree.frontier = (symbols.map Symbol.name).map some := by
    intro symbols
    induction symbols with
    | nil => exact fun _ => rfl
    | cons s symbols ih =>
        intro hall
        obtain ⟨hs, hall⟩ := List.forall_mem_cons.1 hall
        have hleaf := Tree.frontier_of_isOpen (t := .leaf s.name) (Tree.isOpen_iff.2 ⟨rfl, rfl, hs⟩)
        rw [Tree.leaves_cons, List.flatMap_cons, ih hall, hleaf]
        rfl
  rw [Tree.ofProduction_eq_above, Tree.frontier_above]
  exact hleaves p.rhs (hg.named p hp)

/-- Among the tokens that have been read, none has the name of a nonterminal, so a production takes
the place of the first name that is still to be found. -/
lemma frontier_predict (hg : g.IsWellFormed) (hp : p ∈ g.productions)
    (hfresh : p.lhs ∉ before)
    (hfrontier : t.frontier = (before ++ p.lhs :: stack).map some)
    (h : t.substituteLeftmost? (.ofProduction p) = some t') :
    t'.frontier = (before ++ (p.rhsNames ++ stack)).map some := by
  obtain ⟨left, right, hsplit, hleft, hfrontier'⟩ := Tree.frontier_substituteLeftmost? h
  have hlabel : (Tree.ofProduction p).label = p.lhs := rfl
  rw [hlabel] at hsplit hleft
  rw [hfrontier, List.map_append, List.map_cons] at hsplit
  have hfresh' : some p.lhs ∉ before.map some := by simpa using hfresh
  obtain ⟨rfl, rfl⟩ : left = before.map some ∧ right = stack.map some := by
    rcases List.append_eq_append_iff.1 hsplit with ⟨rest, rfl, hrest⟩ | ⟨rest, hbefore, hrest⟩
    · cases rest with
      | nil => simpa using hrest.symm
      | cons _ rest =>
          obtain ⟨rfl, -⟩ := List.cons.inj hrest
          simp at hleft
    · cases rest with
      | nil => simpa [hbefore] using hrest
      | cons _ rest =>
          obtain ⟨rfl, -⟩ := List.cons.inj hrest
          simp [hbefore] at hfresh'
  rw [hfrontier', frontier_ofProduction hg hp]
  simp

/-- A production can take a place in every tree from which its left-hand side is still to be
found. -/
lemma predictedTrees_ne_nil {trees : List Tree} (h : ∀ t ∈ trees, some p.lhs ∈ t.frontier) :
    TopDownRule.predictedTrees p trees ≠ [] := by
  cases trees with
  | nil => exact List.cons_ne_nil _ _
  | cons t trees =>
      obtain ⟨t', -, -, ht', -⟩ := Tree.exists_substituteLeftmost?_of_mem_frontier
        (u := .ofProduction p) (h t List.mem_cons_self)
      exact List.ne_nil_of_mem (List.mem_filterMap.2 ⟨t, List.mem_cons_self, ht'⟩)

/-- The trees for a right-hand side fill the tree of the production. -/
lemma fills_ofProduction (hg : g.IsWellFormed) (hempty : g.hasEmptyProduction = false)
    (hp : p ∈ g.productions) (h : g.Spells p.rhs cs w) :
    Tree.Fills [.ofProduction p] cs [.above p.lhs cs] := by
  have hrhs := rhs_ne_nil hempty hp
  have hleaves : Tree.leaves p.rhs ≠ [] := by simpa [Tree.leaves] using hrhs
  have hcs : cs ≠ [] := by
    rintro rfl
    exact hrhs (List.length_eq_zero_iff.1 h.length_eq.symm)
  have hlabels : cs.map Tree.label = (Tree.leaves p.rhs).map Tree.label :=
    h.map_label.trans (Tree.map_label_leaves p.rhs).symm
  have hopen : ∀ c ∈ Tree.leaves p.rhs, c.isOpen = true := by
    intro c hc
    obtain ⟨s, hs, rfl⟩ := List.mem_map.1 hc
    exact (hg.declares hp).isOpen hs
  rw [Tree.ofProduction_eq_above, Tree.above_of_ne_nil _ hleaves, Tree.above_of_ne_nil _ hcs]
  exact .singleton hleaves (.of_leaves hopen hlabels)

section Trees

variable (hg : g.IsWellFormed) (hlhs : ∀ p ∈ g.productions, p.lhs ∈ g.nonterminals)
  (hempty : g.hasEmptyProduction = false) (htokens : ∀ a ∈ tokens, a ∉ g.nonterminals)
include hg hlhs hempty htokens

lemma IsSound.predict (hp : p ∈ g.productions) (hx : IsSound g tokens x)
    (h : TopDownRule.fire (.predict p tokens.length) [x] = some f) :
    ∀ y ∈ f.items, IsSound g tokens y := by
  obtain ⟨stack, i, hform, hi, hnil, htrees⟩ := hx
  obtain ⟨rest, rfl, -, -, hitems⟩ := predict_eq_some hform h
  have hrhs := rhs_ne_nil hempty hp
  intro y hy
  rw [hitems, List.mem_singleton] at hy
  subst hy
  refine ⟨p.rhsNames ++ rest, i, rfl, hi, fun hnone => ?_, fun t ht => ?_⟩
  · refine absurd hnone (predictedTrees_ne_nil fun t ht => ?_)
    rw [(htrees t ht).2.2.2]
    simp
  rcases mem_predictedTrees.1 ht with ⟨hfirst, rfl⟩ | ⟨u, hu, ht⟩
  · -- the first production is one of the start symbol
    obtain ⟨hstack, rfl⟩ := (hnil hfirst).resolve_left (List.cons_ne_nil _ _)
    obtain ⟨hstart, rfl⟩ := List.cons.inj hstack
    refine ⟨isPartial_ofProduction hp hrhs, hstart, ?_, ?_⟩
    · rw [Tree.ofProduction_eq_above]
      exact Tree.children_above_ne_nil _ _
    · rw [frontier_ofProduction hg hp, List.take_zero, List.nil_append, List.append_nil]
  · obtain ⟨hpartial, hlabel, hinner, hfrontier⟩ := htrees u hu
    obtain ⟨hpartial', hlabel', -⟩ := isPartial_substituteLeftmost? hp hrhs hpartial ht
    refine ⟨hpartial', hlabel'.trans hlabel, ?_, frontier_predict hg hp ?_ hfrontier ht⟩
    · obtain ⟨a, v, -, -, -, hreplace⟩ := Tree.substituteLeftmost?_eq_some ht
      refine Tree.children_ne_nil_of_replaceOn? hinner (fun _ => ?_) hreplace
      rw [Tree.ofProduction_eq_above]
      exact Tree.children_above_ne_nil _ _
    · exact fun hmem => htokens p.lhs (List.mem_of_mem_take hmem) (hlhs p hp)

variable [Weight W] {schema : Schema W} (hschema : Schema.topDown g tokens = .ok schema)
include hschema

lemma preserves_isSound : schema.Preserves (IsSound g tokens) :=
  preserves hschema
    ⟨[g.start], 0, rfl, Nat.zero_le _, fun _ => Or.inr ⟨rfl, rfl⟩,
      fun _ ht => absurd ht List.not_mem_nil⟩
    (fun _ _ hx => hx.scan) (fun _ hp _ _ hx => hx.predict hg hlhs hempty htokens hp)
    fun _ _ hx => hx.merge

section Complete

variable (hloop : ∀ a, ¬TransGen (LeadsTo g) a a) {settings : Settings}
  (hpolicy : settings.policy = .accumulate) {fuel : ℕ} {s : Deduction.State W}
  (hs : Deduction.finalState settings schema fuel = .ok s)
include hloop hpolicy hs

/-- Every tree that a rule concludes is a tree of its form at the end, since it does not occur in
any other one. -/
lemma exists_item_of_fire {rule : TopDownRule} (hrule : .topDown rule ∈ schema.rules)
    (hx : x ∈ s.chart.items) (hf : rule.fire [x] = some f) (hy : y ∈ f.items)
    (ht : t ∈ y.trees) : ∃ z ∈ s.chart.items, z.form = y.form ∧ t ∈ z.trees := by
  have hsound := preserves_isSound hg hlhs hempty htokens hschema
  have hall := Deduction.holds_of_finalState hsound hs
  have hfire : Rule.fire? (.topDown rule) [x] = some f := Rule.fire?_eq_some.2 ⟨rfl, hf⟩
  obtain ⟨stack, i, hform, -, -, htrees⟩ :=
    hsound.of_fire _ hrule [x] f (by simpa using hall x hx) hfire y hy
  obtain ⟨hpartial, hlabel, -, hfrontier⟩ := htrees t ht
  obtain ⟨z, hz, hzform, hkeeps⟩ := Deduction.keeps_of_fire hpolicy hs hrule hx hfire hy
  refine ⟨z, hz, hzform, Forest.mem_of_excludes (hkeeps t ht) fun u hu => ?_⟩
  obtain ⟨-, hulabel, -, hufrontier⟩ := ((hall z hz).of_form (hzform.trans hform)).2.2 u hu
  exact not_hasProperSubtree hg hloop hpartial (hulabel.trans hlabel.symm)
    (by rw [hfrontier, hufrontier])

omit hpolicy in
/-- At the end of a run the start symbol has an item without trees. -/
lemma exists_empty_start : ∃ x ∈ s.chart.items, x.form = form [g.start] 0 ∧ x.trees = [] := by
  have hfact : Schema.fact "axiom" (.ofForm (form [g.start] 0)) ∈ schema.axioms := by
    rw [schema_eq hschema]
    exact List.mem_singleton_self _
  obtain ⟨x, hx, hform⟩ := Chart.mem_forms_iff.1
    (Deduction.mem_forms_of_mem_axioms hs hfact (List.mem_singleton_self _))
  refine ⟨x, hx, hform, List.eq_nil_iff_forall_not_mem.2 fun t ht => ?_⟩
  have hsound := Deduction.holds_of_finalState
    (preserves_isSound hg hlhs hempty htokens hschema) hs x hx
  obtain ⟨hpartial, hlabel, hinner, hfrontier⟩ := (hsound.of_form hform).2.2 t ht
  refine frontier_ne_singleton hg hloop hpartial hinner ?_
  rw [hfrontier, hlabel]
  rfl

/-- A production takes the place of its left-hand side, which is to be found next, in every tree that
can grow to a parse tree so. -/
lemma exists_item_predict {filled : Tree} (hp : p ∈ g.productions) (hcs : g.Spells p.rhs cs w)
    (hbefore : ∀ a ∈ before, a ∈ tokens) (hlength : before.length ≤ tokens.length)
    (hroom : (p.rhsNames ++ stack).length ≤ tokens.length - before.length)
    (hx : x ∈ s.chart.items) (hform : x.form = form (p.lhs :: stack) before.length)
    (ht : t ∈ x.trees)
    (hfills : Tree.Fills [t] (before.map Tree.leaf ++ .above p.lhs cs :: us) [filled]) :
    ∃ y ∈ s.chart.items, y.form = form (p.rhsNames ++ stack) before.length ∧ ∃ t' ∈ y.trees,
      Tree.Fills [t'] (before.map Tree.leaf ++ cs ++ us) [filled] := by
  have hfresh : ∀ v ∈ before.map Tree.leaf, v.label ≠ p.lhs := by
    intro v hv hlabel
    obtain ⟨a, ha, rfl⟩ := List.mem_map.1 hv
    refine htokens a (hbefore a ha) ?_
    rw [show a = p.lhs from hlabel]
    exact hlhs p hp
  obtain ⟨t', ht', hfills'⟩ :=
    hfills.exists_substituteLeftmost? (fills_ofProduction hg hempty hp hcs) rfl hfresh
  obtain ⟨y, hy, hyform, hty⟩ := exists_item_of_fire hg hlhs hempty htokens hschema hloop hpolicy
    hs ((mem_rules hschema).2 (Or.inr ⟨p, hp, rfl⟩)) hx (fire_predict hform hlength hroom)
    (List.mem_singleton_self _) (mem_predictedTrees.2 (Or.inr ⟨t, ht, ht'⟩))
  exact ⟨y, hy, hyform, t', hty, hfills'⟩

/-- Symbols that are still to be found in the first place are read off, while the trees for them
take their places. What stands before and behind them in a parse tree stays. -/
lemma exists_item_of_spells {filled : Tree} (h : g.Spells symbols ts w)
    (hw : tokens = before ++ w ++ behind) (hroom : stack.length ≤ behind.length)
    (hx : x ∈ s.chart.items)
    (hform : x.form = form (symbols.map Symbol.name ++ stack) before.length) (ht : t ∈ x.trees)
    (hfills : Tree.Fills [t] (before.map Tree.leaf ++ ts ++ us) [filled]) :
    ∃ y ∈ s.chart.items, y.form = form stack (before ++ w).length ∧ ∃ t' ∈ y.trees,
      Tree.Fills [t'] ((before ++ w).map Tree.leaf ++ us) [filled] := by
  induction h generalizing before behind stack x t us with
  | nil => exact ⟨x, hx, by simpa using hform, t, ht, by simpa using hfills⟩
  | @leaf a symbols ts w _ ih =>
      have htoken : tokens[before.length]? = some a := by simp [hw]
      obtain ⟨y, hy, hyform, hty⟩ := exists_item_of_fire hg hlhs hempty htokens hschema hloop
        hpolicy hs ((mem_rules hschema).2 (Or.inl rfl)) hx (fire_scan hform htoken)
        (List.mem_singleton_self _) ht
      have hw' : tokens = (before ++ [a]) ++ w ++ behind := by simpa using hw
      have hfills' : Tree.Fills [t] ((before ++ [a]).map Tree.leaf ++ ts ++ us) [filled] := by
        simpa using hfills
      have hform' : y.form = form (symbols.map Symbol.name ++ stack) (before ++ [a]).length := by
        rw [hyform, List.length_append]
        rfl
      simpa using ih hw' hroom hy hform' hty hfills'
  | @node p symbols cs ts u w hp hcs hts ihcs ihts =>
      -- every symbol spells something, so there is room for those of the production
      have hwidth := hcs.length_le hempty
      have hwidth' := hts.length_le hempty
      have hfits : (p.rhsNames ++ (symbols.map Symbol.name ++ stack)).length ≤
          tokens.length - before.length := by
        simp only [hw, Production.rhsNames, List.length_append, List.length_map]
        omega
      have hrest : (symbols.map Symbol.name ++ stack).length ≤ (w ++ behind).length := by
        simp only [List.length_append, List.length_map]
        omega
      have hfills₁ : Tree.Fills [t]
          (before.map Tree.leaf ++ .above p.lhs cs :: (ts ++ us)) [filled] := by
        simpa using hfills
      obtain ⟨y, hy, hyform, t₁, ht₁, hfills₁⟩ := exists_item_predict hg hlhs hempty htokens
        hschema hloop hpolicy hs hp hcs (by simp +contextual [hw]) (by simp [hw]) hfits hx hform ht
        hfills₁
      have hw₁ : tokens = before ++ u ++ (w ++ behind) := by simpa using hw
      have hw₂ : tokens = (before ++ u) ++ w ++ behind := by simpa using hw
      obtain ⟨z, hz, hzform, t₂, ht₂, hfills₂⟩ := ihcs hw₁ hrest hy hyform ht₁ hfills₁
      have hfills₂ : Tree.Fills [t₂] ((before ++ u).map Tree.leaf ++ ts ++ us) [filled] := by
        simpa using hfills₂
      simpa using ihts hw₂ hroom hz hzform ht₂ hfills₂

/-- At the end of a run the item in which everything has been found carries every parse tree. -/
lemma exists_goal_of_isParseTree (h : g.IsParseTree tokens t) :
    ∃ z ∈ s.chart.items, z.form = form [] tokens.length ∧ t ∈ z.trees := by
  obtain ⟨p, hp, hstart, cs, rfl, hcs⟩ := ((isParseTree_iff hg).1 h).exists_of_nonterminal
  obtain ⟨x, hx, hform, hnil⟩ := exists_empty_start hg hlhs hempty htokens hschema hloop hs
  rw [← hstart] at hform ⊢
  have hlength := hcs.length_le hempty
  have hfire := fire_predict (n := tokens.length) hform (Nat.zero_le _)
    (by simpa [Production.rhsNames] using hlength)
  obtain ⟨y, hy, hyform, hmem⟩ := exists_item_of_fire hg hlhs hempty htokens hschema hloop hpolicy
    hs ((mem_rules hschema).2 (Or.inr ⟨p, hp, rfl⟩)) hx hfire (List.mem_singleton_self _)
    (mem_predictedTrees.2 (Or.inl ⟨hnil, rfl⟩))
  have hfills : Tree.Fills [.ofProduction p] (([] : List String).map Tree.leaf ++ cs ++ [])
      [.above p.lhs cs] := by
    simpa using fills_ofProduction hg hempty hp hcs
  have htokens' : tokens = [] ++ tokens ++ [] := by simp
  obtain ⟨z, hz, hzform, t, ht, hfills⟩ := exists_item_of_spells hg hlhs hempty htokens hschema
    hloop hpolicy hs hcs htokens' le_rfl hy hyform hmem hfills
  -- the trees that fill the last tree are leaves
  have heq := hfills.eq_of_leaves fun u hu => by
    obtain ⟨a, -, rfl⟩ := List.mem_map.1 (by simpa using hu)
    rfl
  obtain rfl := List.singleton_inj.1 heq
  exact ⟨z, hz, by simpa using hzform, ht⟩

end Complete

/-- If no name leads to itself, the trees of an outcome are exactly the parse trees. -/
theorem mem_trees_iff (hloop : ∀ a, ¬TransGen (LeadsTo g) a a) {settings : Settings}
    (hpolicy : settings.policy = .accumulate) {fuel : ℕ} {o : Outcome W}
    (h : Deduction.run settings schema fuel = .ok o) :
    t ∈ o.trees ↔ g.IsParseTree tokens t := by
  obtain ⟨s, hs, rfl⟩ := Deduction.run_eq_ok h
  have hgoals : ∀ {form'}, (∃ y ∈ schema.goals, y.form = form') ↔
      form [] tokens.length = form' := by
    intro form'
    rw [schema_eq hschema]
    refine ⟨?_, fun h => ⟨_, List.mem_singleton_self _, h⟩⟩
    rintro ⟨y, hy, rfl⟩
    rw [List.mem_singleton.1 hy]
    rfl
  rw [Deduction.mem_trees_ofChart (Deduction.consistent_of_finalState hs).1.indexed]
  constructor
  · rintro ⟨x, hx, hgoal, ht⟩
    have hsound := Deduction.holds_of_finalState
      (preserves_isSound hg hlhs hempty htokens hschema) hs x hx
    obtain ⟨hpartial, hlabel, hinner, hfrontier⟩ := (hsound.of_form (hgoals.1 hgoal).symm).2.2 t ht
    rw [List.take_length, List.append_nil] at hfrontier
    refine ⟨hlabel, hinner, everywhere_isRuleNode hg hlhs hempty hpartial fun a ha => ?_, hfrontier⟩
    rw [hfrontier] at ha
    exact htokens a (by simpa using ha)
  · intro ht
    obtain ⟨z, hz, hform, hmem⟩ := exists_goal_of_isParseTree hg hlhs hempty htokens hschema hloop
      hpolicy hs ht
    exact ⟨z, hz, hgoals.2 hform.symm, hmem⟩

end Trees

end DeductiveParsing.TopDown
