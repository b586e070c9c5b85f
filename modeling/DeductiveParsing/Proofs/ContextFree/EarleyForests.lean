/-
The trees of Earley parsing.

* `Earley.IsProgress`: the tree of a dotted production, with trees for the symbols before the dot
  and leaves for those behind it;
* `Earley.Fits`, `Earley.preserves_fits`: what items carry;
* `Earley.composes`: the trees are put together from those of the antecedents;
* `Earley.exists_item_of_spells`: without cycles, the items carry all such trees;
* `Earley.earley_trees`: the trees of an outcome are parse trees, and without cycles all of them.
-/
import DeductiveParsing.Proofs.ContextFree.Earley
import DeductiveParsing.Proofs.ContextFree.ParseTrees
import DeductiveParsing.Proofs.Deduction.Composition

namespace DeductiveParsing

namespace Earley

open ContextFree Grammar Rewriting

variable {W : Type} {g : Grammar} {tokens : List String} {d d' : Dotted} {p : Production}
  {i j k : ℕ} {w v : List String} {t u : Tree}

lemma mem_completions {active done : List Tree} : t ∈ completions active done ↔
    ∃ u ∈ active, ∃ v ∈ done, u.substituteLeftmost? v = some t := by
  simp [completions, Choice.mem_distinct, Forest.mem_fill_singleton]

/-! ### Trees of dotted productions -/

/-- Whether a tree is that of a dotted production: the symbols before the dot have trees that spell
a word, and those behind it are leaves. -/
def IsProgress (g : Grammar) (d : Dotted) (w : List String) (t : Tree) : Prop :=
  ∃ cs, g.Spells (d.production.rhs.take d.dot) cs w ∧
    t = .above d.production.lhs (cs ++ Tree.leaves (d.production.rhs.drop d.dot))

lemma drop_of_next? {s : Symbol} (h : d.next? = some s) :
    d.production.rhs.drop d.dot = s :: d.production.rhs.drop (d.dot + 1) := by
  obtain ⟨hlt, rfl⟩ := List.getElem?_eq_some_iff.1 h
  exact List.drop_eq_getElem_cons hlt

lemma mem_rhs_of_next? {s : Symbol} (h : d.next? = some s) : s ∈ d.production.rhs :=
  List.mem_of_getElem? h

lemma isProgress_ofProduction (p : Production) :
    IsProgress g (.ofProduction p) [] (Tree.ofProduction p) :=
  ⟨[], .nil, Tree.ofProduction_eq_above p⟩

namespace IsProgress

/-- Behind a symbol of its own right-hand side a tree is that of the next dotted production. -/
lemma of_take {cs : List Tree} {s : Symbol} (hnext : d.next? = some s)
    (hcs : g.Spells (d.production.rhs.take d.dot) cs w) {c : Tree} (hc : g.Spells [s] [c] v) :
    IsProgress g ⟨d.production, d.dot + 1⟩ (w ++ v)
      (.above d.production.lhs (cs ++ c :: Tree.leaves (d.production.rhs.drop (d.dot + 1)))) := by
  refine ⟨cs ++ [c], ?_, by simp⟩
  rw [take_succ_of_next? hnext]
  exact hcs.append hc

/-- The dot moves over a terminal. -/
lemma scan {a : String} (h : IsProgress g d w t) (hnext : d.next? = some (.terminal a)) :
    IsProgress g ⟨d.production, d.dot + 1⟩ (w ++ [a]) t := by
  obtain ⟨cs, hcs, rfl⟩ := h
  rw [drop_of_next? hnext]
  exact of_take hnext hcs (.leaf a .nil)

/-- The tree of a production that is complete is a tree for its left-hand side. -/
lemma spells (h : IsProgress g d w t) (hp : d.production ∈ g.productions)
    (hdone : d.isActive = false) : g.Spells [.nonterminal d.production.lhs] [t] w := by
  obtain ⟨cs, hcs, rfl⟩ := h
  have hle : d.production.rhs.length ≤ d.dot := by simpa [Dotted.isActive] using hdone
  rw [List.take_of_length_le hle] at hcs
  rw [List.drop_eq_nil_of_le hle, Tree.leaves_nil, List.append_nil]
  exact .singleton_node hp hcs

/-- A tree for the nonterminal behind the dot takes the place of its leaf, since no leaf before that
has its name. -/
lemma substitute (hg : g.IsWellFormed) (hp : d.production ∈ g.productions) {cs : List Tree}
    {b : String} (hnext : d.next? = some (.nonterminal b))
    (hcs : g.Spells (d.production.rhs.take d.dot) cs w) (hlabel : u.label = b) :
    (Tree.above d.production.lhs
      (cs ++ Tree.leaves (d.production.rhs.drop d.dot))).substituteLeftmost? u =
        some (.above d.production.lhs
          (cs ++ u :: Tree.leaves (d.production.rhs.drop (d.dot + 1)))) := by
  have hdeclares := hg.declares hp
  have hb : b ∈ g.nonterminals := hdeclares.mem (mem_rhs_of_next? hnext)
  have hbefore := hcs.not_mem_frontier hg (hdeclares.mono (List.take_subset _ _)) hb
  have hopen := hdeclares.isOpen (mem_rhs_of_next? hnext)
  subst hlabel
  rw [drop_of_next? hnext]
  exact Tree.substituteLeftmost?_above hbefore hopen

/-- The dot moves over a nonterminal whose tree is substituted. -/
lemma complete (hg : g.IsWellFormed) (hp : d.production ∈ g.productions)
    (hp' : d'.production ∈ g.productions) (hdone : d'.isActive = false)
    (hnext : d.next? = some (.nonterminal d'.production.lhs)) (h : IsProgress g d w t)
    (h' : IsProgress g d' v u) {t' : Tree} (ht' : t.substituteLeftmost? u = some t') :
    IsProgress g ⟨d.production, d.dot + 1⟩ (w ++ v) t' ∧
      ∀ c ∈ t'.children, c.children = [] ∨ c = u ∨ c ∈ t.children := by
  obtain ⟨cs, hcs, rfl⟩ := h
  have hu := h'.spells hp' hdone
  have hlabel : u.label = d'.production.lhs := by
    obtain ⟨ds, -, rfl⟩ := h'
    rfl
  rw [substitute hg hp hnext hcs hlabel, Option.some.injEq] at ht'
  subst ht'
  refine ⟨of_take hnext hcs hu, fun c hc => ?_⟩
  rw [Tree.above_of_ne_nil _ (by simp)] at hc
  rcases List.mem_append.1 hc with hc | hc
  · refine Or.inr (Or.inr ?_)
    rw [Tree.above_of_ne_nil _ (List.append_ne_nil_of_left_ne_nil (List.ne_nil_of_mem hc) _)]
    exact List.mem_append_left _ hc
  · rcases List.mem_cons.1 hc with rfl | hc
    · exact Or.inr (Or.inl rfl)
    · obtain ⟨s, -, rfl⟩ := List.mem_map.1 hc
      exact Or.inl rfl

/-- A tree of a dotted production spells the word and the names behind the dot. -/
lemma length_frontier (hg : g.IsWellFormed) (hp : d.production ∈ g.productions)
    (h : IsProgress g d w t) :
    t.frontier.length = w.length + (d.production.rhs.drop d.dot).length := by
  obtain ⟨cs, hcs, rfl⟩ := h
  have hdeclares := hg.declares hp
  have hleaves : ∀ symbols, g.Declares symbols →
      ((Tree.leaves symbols).flatMap Tree.frontier).length = symbols.length := by
    intro symbols hsymbols
    induction symbols with
    | nil => rfl
    | cons s symbols ih =>
        rw [Tree.leaves_cons, List.flatMap_cons, List.length_append,
          Tree.frontier_of_isOpen (hsymbols.isOpen List.mem_cons_self), ih hsymbols.tail,
          List.length_singleton, List.length_cons, Nat.add_comm]
  rw [Tree.frontier_above, List.flatMap_append, List.length_append,
    hcs.frontier_eq hg (hdeclares.mono (List.take_subset _ _)), List.length_map,
    hleaves _ (hdeclares.mono (List.drop_subset _ _))]

/-- All nodes have labels of the grammar and not more children than it allows. -/
lemma everywhere_isPlain (hp : d.production ∈ g.productions) (h : IsProgress g d w t) :
    t.Everywhere g.IsPlain := by
  obtain ⟨cs, hcs, rfl⟩ := h
  have hleaf : ∀ s ∈ d.production.rhs, (Tree.leaf s.name).Everywhere g.IsPlain :=
    fun s hs => Tree.everywhere_leaf (isPlain_leaf (name_mem_labels hp hs))
  refine Tree.everywhere_above (isPlain_above hp ?_)
    (Tree.everywhere_leaf (isPlain_leaf List.mem_cons_self)) fun c hc => ?_
  · rw [List.length_append, hcs.length_eq, Tree.length_leaves, ← List.length_append,
      List.take_append_drop]
  · rcases List.mem_append.1 hc with hc | hc
    · exact hcs.everywhere_isPlain
        (fun s hs => name_mem_labels hp (List.mem_of_mem_take hs)) c hc
    · obtain ⟨s, hs, rfl⟩ := List.mem_map.1 hc
      exact hleaf s (List.mem_of_mem_drop hs)

/-- Without cycles no tree of a dotted production occurs below the root of another one over a word
of the same length. -/
lemma not_hasProperSubtree (hacyclic : g.IsAcyclic) (hg : g.IsWellFormed)
    (hp : d.production ∈ g.productions) (ht : IsProgress g d w t) (hu : IsProgress g d v u)
    (hlength : w.length = v.length) : t.hasProperSubtree u = false := by
  refine Tree.hasProperSubtree_eq_false_iff.2 fun c hc hmem => ?_
  have hfrontier := hu.length_frontier hg hp
  obtain ⟨cs, hcs, rfl⟩ := ht
  obtain ⟨ds, -, rfl⟩ := hu
  -- a leaf has no subtree with children
  have hleaf : ∀ a, Tree.above d.production.lhs (ds ++ Tree.leaves (d.production.rhs.drop d.dot)) ∉
      (Tree.leaf a).nodes.map Prod.snd := by
    intro a hmem
    exact Tree.children_above_ne_nil _ _ (congrArg Tree.children (Tree.eq_of_mem_nodes rfl hmem))
  rcases Tree.mem_children_above hc with hc | ⟨-, rfl⟩
  · rcases List.mem_append.1 hc with hc | hc
    · refine hacyclic.not_mem_nodes hg hp (List.take_append_drop _ _).symm hcs
        (Tree.children_above_ne_nil _ _) rfl ?_ (List.mem_flatMap.2 ⟨c, hc, hmem⟩)
      rw [hlength]
      exact hfrontier.ge
    · obtain ⟨s, -, rfl⟩ := List.mem_map.1 hc
      exact hleaf _ hmem
  · exact hleaf _ hmem

end IsProgress

/-! ### What items carry -/

/-- What items carry: trees of their dotted production that spell the tokens between the two places,
among them the tree of the production while the dot is before all symbols. -/
def Fits (g : Grammar) (tokens : List String) (x : Item W) : Prop :=
  ∃ d i j, x.form = form d i j ∧ d.production ∈ g.productions ∧
    d.dot ≤ d.production.rhs.length ∧ i ≤ j ∧ j ≤ tokens.length ∧
      (d.dot = 0 → Tree.ofProduction d.production ∈ x.trees) ∧
        ∀ t ∈ x.trees, IsProgress g d (span tokens i j) t

lemma form_injective {d d' : Dotted} {i i' j j' : ℕ} (h : form d i j = form d' i' j') :
    d = d' ∧ i = i' ∧ j = j' := by
  simpa [form] using h

/-- What is known of an item whose form is known. -/
lemma Fits.of_form {x : Item W} (h : Fits g tokens x) (hx : x.form = form d i j) :
    d.production ∈ g.productions ∧ i ≤ j ∧ j ≤ tokens.length ∧
      ∀ t ∈ x.trees, IsProgress g d (span tokens i j) t := by
  obtain ⟨d', i', j', hform, hp, -, hij, hj, -, htrees⟩ := h
  obtain ⟨rfl, rfl, rfl⟩ := form_injective (hform.symm.trans hx)
  exact ⟨hp, hij, hj, htrees⟩

lemma fits_ofProduction (hp : p ∈ g.productions) (hj : j ≤ tokens.length) :
    Fits g tokens (EarleyRule.item (W := W) (.ofProduction p) j j [Tree.ofProduction p]) := by
  refine ⟨_, j, j, rfl, hp, Nat.zero_le _, le_rfl, hj, fun _ => List.mem_singleton_self _,
    fun t ht => ?_⟩
  rw [List.mem_singleton.1 ht, span_self]
  exact isProgress_ofProduction p

lemma Fits.scan {x : Item W} {f : Firing W} (hx : Fits g tokens x)
    (h : (EarleyRule.scan tokens).fire [x] = some f) : ∀ y ∈ f.items, Fits g tokens y := by
  obtain ⟨d, i, j, hform, hp, -, hij, -, -, htrees⟩ := hx
  obtain ⟨a, hnext, htoken, hitems⟩ := items_of_scan hform h
  have hlt := (List.getElem?_eq_some_iff.1 htoken).1
  rw [hitems]
  refine fun y hy => List.mem_singleton.1 hy ▸ ⟨_, i, j + 1, rfl, hp, dot_lt_of_next? hnext,
    by omega, hlt, fun hzero => absurd hzero (Nat.succ_ne_zero _), fun t ht => ?_⟩
  rw [← span_append hij (Nat.le_succ j), span_succ htoken]
  exact (htrees t ht).scan hnext

lemma Fits.predict {x : Item W} {f : Firing W} (hx : Fits g tokens x) (hp : p ∈ g.productions)
    (h : (EarleyRule.predict p).fire [x] = some f) : ∀ y ∈ f.items, Fits g tokens y := by
  obtain ⟨d, i, j, hform, -, -, -, hj, -, -⟩ := hx
  obtain ⟨-, hitems⟩ := items_of_predict hform h
  rw [hitems]
  exact fun y hy => List.mem_singleton.1 hy ▸ fits_ofProduction hp hj

/-- What a completion concludes, and what the children of its trees are. -/
lemma Fits.completeWith (hg : g.IsWellFormed) {x y : Item W} {f : Firing W}
    (hx : Fits g tokens x) (hy : Fits g tokens y) (h : EarleyRule.completeWith x y = some f) :
    ∀ z ∈ f.items, Fits g tokens z ∧ ∀ t ∈ z.trees, ∀ c ∈ t.children, c.children = [] ∨
      c ∈ y.trees ∨ ∃ u ∈ x.trees, c ∈ u.children := by
  obtain ⟨d, i, j, hform, hp, -, hij, -, -, htrees⟩ := hx
  obtain ⟨d', j', k, hform', hp', -, hjk, hk, -, htrees'⟩ := hy
  obtain ⟨rfl, hdone, hnext, hitems⟩ := items_of_completeWith hform hform' h
  have htree : ∀ t ∈ completions x.trees y.trees,
      IsProgress g ⟨d.production, d.dot + 1⟩ (span tokens i k) t ∧ ∀ c ∈ t.children,
        c.children = [] ∨ c ∈ y.trees ∨ ∃ u ∈ x.trees, c ∈ u.children := by
    intro t ht
    obtain ⟨u, hu, v, hv, hsub⟩ := mem_completions.1 ht
    obtain ⟨hprogress, hchildren⟩ :=
      (htrees u hu).complete hg hp hp' hdone hnext (htrees' v hv) hsub
    rw [span_append hij hjk] at hprogress
    refine ⟨hprogress, fun c hc => ?_⟩
    rcases hchildren c hc with hleaf | rfl | hmem
    · exact Or.inl hleaf
    · exact Or.inr (Or.inl hv)
    · exact Or.inr (Or.inr ⟨u, hu, hmem⟩)
  rw [hitems]
  refine fun z hz => List.mem_singleton.1 hz ▸ ⟨⟨_, i, k, rfl, hp, dot_lt_of_next? hnext,
    by omega, hk, fun hzero => absurd hzero (Nat.succ_ne_zero _), fun t ht => (htree t ht).1⟩,
      fun t ht => (htree t ht).2⟩

lemma Fits.merge {x y : Item W} (hx : Fits g tokens x) (hy : Fits g tokens y)
    (h : x.form = y.form) : Fits g tokens { x with trees := Forest.merge x.trees y.trees } := by
  obtain ⟨d, i, j, hform, hp, hdot, hij, hj, hzero, htrees⟩ := hx
  obtain ⟨-, -, -, htrees'⟩ := hy.of_form (h.symm.trans hform)
  exact ⟨d, i, j, hform, hp, hdot, hij, hj,
    fun h => (Forest.prefix_merge _ _).subset (hzero h),
    fun t ht => (Forest.mem_merge ht).elim (htrees t) (htrees' t)⟩

variable [Weight W] {schema : Schema W}

lemma preserves_fits (hg : g.IsWellFormed) (hschema : Schema.earley g tokens = .ok schema) :
    schema.Preserves (Fits g tokens) where
  of_axiom a ha x hx := by
    obtain ⟨p, hp, -, rfl⟩ := (mem_axioms hschema).1 ha
    exact List.mem_singleton.1 hx ▸ fits_ofProduction hp (Nat.zero_le _)
  of_fire rule hrule xs f hxs hf := by
    obtain ⟨hlen, hf⟩ := Rule.fire?_eq_some.1 hf
    rcases (mem_rules hschema).1 hrule with rfl | rfl | ⟨p, hp, rfl⟩
    · obtain ⟨x, rfl⟩ := List.length_eq_one_iff.1 hlen
      exact (hxs x List.mem_cons_self).scan hf
    · obtain ⟨x, y, rfl⟩ := List.length_eq_two.1 hlen
      have hx := hxs x (by simp)
      have hy := hxs y (by simp)
      intro z hz
      rcases Firing.eq_some_of_eitherOrder? hf with hf | hf
      · exact (hx.completeWith hg hy hf z hz).1
      · exact (hy.completeWith hg hx hf z hz).1
    · obtain ⟨x, rfl⟩ := List.length_eq_one_iff.1 hlen
      exact (hxs x List.mem_cons_self).predict hp hf
  of_merge _ _ hx hy h := hx.merge hy h

/-- There are finitely many forms of items. -/
lemma finite_forms (g : Grammar) (n : ℕ) :
    {f | ∃ d i j, f = form d i j ∧ d.production ∈ g.productions ∧
      d.dot ≤ d.production.rhs.length ∧ i ≤ j ∧ j ≤ n}.Finite := by
  have hdotted : {d : Dotted | d.production ∈ g.productions ∧
      d.dot ≤ d.production.rhs.length}.Finite := by
    refine ((List.finite_toSet g.productions).biUnion fun p _ =>
      (Set.finite_le_nat p.rhs.length).image (Dotted.mk p)).subset ?_
    rintro ⟨p, dot⟩ ⟨hp, hdot⟩
    exact Set.mem_biUnion hp ⟨dot, hdot, rfl⟩
  refine (Set.Finite.image2 (fun d (ij : ℕ × ℕ) => form d ij.1 ij.2) hdotted
    ((Set.finite_le_nat n).prod (Set.finite_le_nat n))).subset ?_
  rintro _ ⟨d, i, j, rfl, hp, hdot, hij, hj⟩
  exact ⟨d, ⟨hp, hdot⟩, (i, j), ⟨hij.trans hj, hj⟩, rfl⟩

/-- The trees of Earley parsing are put together from those of the antecedents. -/
noncomputable def composes (hg : g.IsWellFormed) (hschema : Schema.earley g tokens = .ok schema) :
    schema.Composes where
  Fits := Fits g tokens
  forms := (finite_forms g tokens.length).toFinset
  labels := g.labels
  width := g.width
  preserves := preserves_fits hg hschema
  form_mem := by
    rintro x ⟨d, i, j, hform, hp, hdot, hij, hj, -⟩
    exact (Set.Finite.mem_toFinset _).2 ⟨d, i, j, hform, hp, hdot, hij, hj⟩
  shape := by
    rintro x ⟨d, i, j, -, hp, -, -, -, -, htrees⟩ t ht
    exact (htrees t ht).everywhere_isPlain hp
  axiom_child a ha x hx t ht c hc := by
    obtain ⟨p, -, -, rfl⟩ := (mem_axioms hschema).1 ha
    obtain rfl := List.mem_singleton.1 hx
    obtain rfl := List.mem_singleton.1 ht
    exact Tree.children_eq_nil_of_mem_ofProduction hc
  fire_child rule hrule xs f hxs hf y hy t ht c hc := by
    obtain ⟨hlen, hf⟩ := Rule.fire?_eq_some.1 hf
    rcases (mem_rules hschema).1 hrule with rfl | rfl | ⟨p, hp, rfl⟩
    · obtain ⟨x, rfl⟩ := List.length_eq_one_iff.1 hlen
      obtain ⟨d, i, j, hform, -⟩ := hxs x List.mem_cons_self
      obtain ⟨a, -, -, hitems⟩ := items_of_scan hform hf
      rw [hitems, List.mem_singleton] at hy
      subst hy
      exact Or.inr ⟨x, List.mem_cons_self, t, ht, Or.inr hc⟩
    · obtain ⟨x, x', rfl⟩ := List.length_eq_two.1 hlen
      have hx := hxs x (by simp)
      have hx' := hxs x' (by simp)
      rcases Firing.eq_some_of_eitherOrder? hf with hf | hf
      · rcases (hx.completeWith hg hx' hf y hy).2 t ht c hc with h | h | ⟨u, hu, h⟩
        · exact Or.inl h
        · exact Or.inr ⟨x', by simp, c, h, Or.inl rfl⟩
        · exact Or.inr ⟨x, by simp, u, hu, Or.inr h⟩
      · rcases (hx'.completeWith hg hx hf y hy).2 t ht c hc with h | h | ⟨u, hu, h⟩
        · exact Or.inl h
        · exact Or.inr ⟨x, by simp, c, h, Or.inl rfl⟩
        · exact Or.inr ⟨x', by simp, u, hu, Or.inr h⟩
    · obtain ⟨x, rfl⟩ := List.length_eq_one_iff.1 hlen
      obtain ⟨d, i, j, hform, -⟩ := hxs x List.mem_cons_self
      obtain ⟨-, hitems⟩ := items_of_predict hform hf
      rw [hitems, List.mem_singleton] at hy
      subst hy
      obtain rfl := List.mem_singleton.1 ht
      exact Or.inl (Tree.children_eq_nil_of_mem_ofProduction hc)

/-! ### All trees -/

section Complete

variable {settings : Settings} {fuel : ℕ} {s : Deduction.State W} {x y : Item W}

/-- Two items complete one another in one order only. -/
lemma fire_complete (hx : x.form = form d i j) (hy : y.form = form d' j k)
    (hdone : d'.isActive = false) (hnext : d.next? = some (.nonterminal d'.production.lhs)) :
    ∀ ys : List (Item W), ys.Perm [x, y] → Rule.fire? (.earley .complete) ys =
      some ⟨"complete",
        [EarleyRule.item ⟨d.production, d.dot + 1⟩ i k (completions x.trees y.trees)]⟩ := by
  obtain ⟨hxd, hxi, hxj⟩ := fields_of_form hx
  obtain ⟨hyd, hyj, hyk⟩ := fields_of_form hy
  have hadvance : d.advance? = some ⟨d.production, d.dot + 1⟩ :=
    advance?_eq_some.2 ⟨dot_lt_of_next? hnext, rfl⟩
  have hjoin : EarleyRule.completeWith x y = some ⟨"complete",
      [EarleyRule.item ⟨d.production, d.dot + 1⟩ i k (completions x.trees y.trees)]⟩ := by
    simp [EarleyRule.completeWith, hxd, hxi, hxj, hyd, hyj, hyk, hdone, hnext, hadvance,
      Firing.one, EarleyRule.name, completions]
  have hswap : EarleyRule.completeWith y x = none := by
    cases h : EarleyRule.completeWith y x with
    | none => rfl
    | some f =>
        have hactive := (items_of_completeWith hy hx h).2.1
        simp [Dotted.isActive, dot_lt_of_next? hnext] at hactive
  intro ys hys
  rcases List.perm_pair.1 hys with rfl | rfl
  · simp [Rule.fire?, Rule.arity, EarleyRule.arity, Rule.fire, EarleyRule.fire,
      Firing.eitherOrder?, hjoin]
  · simp [Rule.fire?, Rule.arity, EarleyRule.arity, Rule.fire, EarleyRule.fire,
      Firing.eitherOrder?, hjoin, hswap]

variable (hg : g.IsWellFormed) (hacyclic : g.IsAcyclic)
  (hschema : Schema.earley g tokens = .ok schema) (hpolicy : settings.policy = .accumulate)
  (hs : Deduction.finalState settings schema fuel = .ok s)
include hg hacyclic hschema hs

/-- Without cycles no tree that is kept stays out of its forest. -/
lemma exists_item_of_keeps (hkeeps : s.chart.Keeps y) (hy : Fits g tokens y)
    (hform : y.form = form d i j) :
    ∃ z ∈ s.chart.items, z.form = form d i j ∧ ∀ t ∈ y.trees, t ∈ z.trees := by
  obtain ⟨z, hz, hzy, hkeeps⟩ := hkeeps
  obtain ⟨hp, -, -, htrees⟩ := hy.of_form hform
  obtain ⟨-, -, -, htrees'⟩ :=
    (Deduction.holds_of_finalState (preserves_fits hg hschema) hs z hz).of_form (hzy.trans hform)
  exact ⟨z, hz, hzy.trans hform, fun t ht => Forest.mem_of_excludes (hkeeps t ht) fun u hu =>
    (htrees t ht).not_hasProperSubtree hacyclic hg hp (htrees' u hu) rfl⟩

include hpolicy

/-- The trees move over the next token. -/
lemma exists_item_scan (hx : x ∈ s.chart.items) (hform : x.form = form d i j) {a : String}
    (hnext : d.next? = some (.terminal a)) (htoken : tokens[j]? = some a) :
    ∃ z ∈ s.chart.items, z.form = form ⟨d.production, d.dot + 1⟩ i (j + 1) ∧
      ∀ t ∈ x.trees, t ∈ z.trees := by
  obtain ⟨hd, hi, hj⟩ := fields_of_form hform
  have hadvance : d.advance? = some ⟨d.production, d.dot + 1⟩ :=
    advance?_eq_some.2 ⟨dot_lt_of_next? hnext, rfl⟩
  have hfire : (Rule.earley (W := W) (.scan tokens)).fire? [x] =
      some ⟨"scan " ++ a, [EarleyRule.item ⟨d.production, d.dot + 1⟩ i (j + 1) x.trees]⟩ := by
    simp [Rule.fire?, Rule.arity, EarleyRule.arity, Rule.fire, EarleyRule.fire, hd, hi, hj,
      hadvance, hnext, htoken, Firing.one]
  have hrule : Rule.earley (.scan tokens) ∈ schema.rules := (mem_rules hschema).2 (Or.inl rfl)
  have hfits := Deduction.holds_of_finalState (preserves_fits hg hschema) hs x hx
  exact exists_item_of_keeps hg hacyclic hschema hs
    (y := EarleyRule.item ⟨d.production, d.dot + 1⟩ i (j + 1) x.trees)
    (Deduction.keeps_of_fire hpolicy hs hrule hx hfire (List.mem_singleton_self _))
    (hfits.scan (Rule.fire?_eq_some.1 hfire).2 _ (List.mem_singleton_self _)) rfl

/-- A production begins with its tree. -/
lemma exists_item_predict (hp : p ∈ g.productions) (hx : x ∈ s.chart.items)
    (hform : x.form = form d i j) (hnext : d.next? = some (.nonterminal p.lhs)) :
    ∃ z ∈ s.chart.items, z.form = form (.ofProduction p) j j ∧ Tree.ofProduction p ∈ z.trees := by
  obtain ⟨hd, hi, hj⟩ := fields_of_form hform
  have hfire : (Rule.earley (W := W) (.predict p)).fire? [x] =
      some ⟨EarleyRule.name (.predict p),
        [EarleyRule.item (.ofProduction p) j j [Tree.ofProduction p]]⟩ := by
    simp [Rule.fire?, Rule.arity, EarleyRule.arity, Rule.fire, EarleyRule.fire, hd, hj, hnext,
      Firing.one]
  have hrule : Rule.earley (.predict p) ∈ schema.rules :=
    (mem_rules hschema).2 (Or.inr (Or.inr ⟨p, hp, rfl⟩))
  have hfits := Deduction.holds_of_finalState (preserves_fits hg hschema) hs x hx
  obtain ⟨z, hz, hzform, htrees⟩ := exists_item_of_keeps hg hacyclic hschema hs
    (Deduction.keeps_of_fire hpolicy hs hrule hx hfire (List.mem_singleton_self _))
    (hfits.predict hp (Rule.fire?_eq_some.1 hfire).2 _ (List.mem_singleton_self _)) rfl
  exact ⟨z, hz, hzform, htrees _ (List.mem_singleton_self _)⟩

/-- The trees move over a nonterminal with each of its trees. -/
lemma exists_item_complete (hx : x ∈ s.chart.items) (hform : x.form = form d i j)
    (hy : y ∈ s.chart.items) (hform' : y.form = form d' j k) (hdone : d'.isActive = false)
    (hnext : d.next? = some (.nonterminal d'.production.lhs)) :
    ∃ z ∈ s.chart.items, z.form = form ⟨d.production, d.dot + 1⟩ i k ∧
      ∀ t ∈ completions x.trees y.trees, t ∈ z.trees := by
  have hfire := fire_complete hform hform' hdone hnext
  have hrule : Rule.earley .complete ∈ schema.rules :=
    (mem_rules hschema).2 (Or.inr (Or.inl rfl))
  have hall := Deduction.holds_of_finalState (preserves_fits hg hschema) hs
  -- one production has a symbol behind its dot and the other has none
  have hne : x.form ≠ y.form := by
    rw [hform, hform']
    intro heq
    obtain ⟨rfl, -⟩ := form_injective heq
    simp [Dotted.isActive, dot_lt_of_next? hnext] at hdone
  have hmem : ∀ z ∈ [x, y], z ∈ s.chart.items := by simp [hx, hy]
  obtain ⟨ys, hys, hkeeps⟩ := Deduction.keeps_of_finalState hpolicy hs hrule rfl hmem
    (by simpa using hne)
  have hjoin := (preserves_fits hg hschema).of_fire _ hrule _ _
    (by simpa using ⟨hall x hx, hall y hy⟩) (hfire _ (.refl _)) _ (List.mem_singleton_self _)
  exact exists_item_of_keeps hg hacyclic hschema hs
    (hkeeps _ (hfire ys hys) _ (List.mem_singleton_self _)) hjoin rfl

omit [Weight W] hg hacyclic hschema hpolicy hs in
lemma drop_ofProduction (p : Production) :
    (Dotted.ofProduction p).production.rhs.drop (Dotted.ofProduction p).dot = p.rhs ++ [] := by
  simp [Dotted.ofProduction]

omit [Weight W] hg hacyclic hschema hpolicy hs in
/-- The tree of a production is that of the production with the dot before its symbols. -/
lemma above_mem_of_ofProduction_mem {ts : List Tree} (h : Tree.ofProduction p ∈ ts) :
    .above (Dotted.ofProduction p).production.lhs ([] ++ Tree.leaves (p.rhs ++ [])) ∈ ts := by
  rwa [Tree.ofProduction_eq_above, ← List.append_nil p.rhs] at h

/-- The trees move over symbols with all trees that spell the next tokens. -/
lemma exists_item_of_spells {symbols : List Symbol} {ts : List Tree} (h : g.Spells symbols ts w)
    {before rest : List String} {behind : List Symbol} {cs : List Tree}
    (htokens : tokens = before ++ w ++ rest) (hp : d.production ∈ g.productions)
    (hd : d.production.rhs.drop d.dot = symbols ++ behind) (hx : x ∈ s.chart.items)
    (hform : x.form = form d i before.length) (hcs : g.Spells (d.production.rhs.take d.dot) cs v)
    (hmem : .above d.production.lhs (cs ++ Tree.leaves (symbols ++ behind)) ∈ x.trees) :
    ∃ z ∈ s.chart.items,
      z.form = form ⟨d.production, d.dot + symbols.length⟩ i (before ++ w).length ∧
        .above d.production.lhs (cs ++ ts ++ Tree.leaves behind) ∈ z.trees := by
  induction h generalizing d i x before rest behind cs v with
  | nil => exact ⟨x, hx, by simpa using hform, by simpa using hmem⟩
  | @leaf a symbols ts w _ ih =>
      obtain ⟨hnext, hdrop⟩ := next?_of_drop_eq_cons hd
      have htoken : tokens[before.length]? = some a := by simp [htokens]
      obtain ⟨z, hz, hzform, htrees⟩ :=
        exists_item_scan hg hacyclic hschema hpolicy hs hx hform hnext htoken
      have htokens' : tokens = (before ++ [a]) ++ w ++ rest := by simpa using htokens
      have hcs' : g.Spells (d.production.rhs.take (d.dot + 1)) (cs ++ [.leaf a]) (v ++ [a]) := by
        rw [take_succ_of_next? hnext]
        exact hcs.append (.leaf a .nil)
      obtain ⟨z', hz', hzform', hmem'⟩ := ih (d := ⟨d.production, d.dot + 1⟩) htokens' hp hdrop hz
        (by simpa using hzform) hcs' (htrees _ (by simpa [Symbol.name] using hmem))
      exact ⟨z', hz', by simpa [Nat.add_comm, Nat.add_left_comm] using hzform',
        by simpa using hmem'⟩
  | @node p symbols cs' ts u w hq hcs' hts ihcs ihts =>
      obtain ⟨hnext, hdrop⟩ := next?_of_drop_eq_cons hd
      -- a production of the nonterminal begins here and is completed with its trees
      obtain ⟨y, hy, hyform, hymem⟩ :=
        exists_item_predict hg hacyclic hschema hpolicy hs hq hx hform hnext
      have htokens₁ : tokens = before ++ u ++ (w ++ rest) := by simpa using htokens
      obtain ⟨y', hy', hyform', hymem'⟩ := ihcs htokens₁ hq (drop_ofProduction p) hy hyform .nil
        (above_mem_of_ofProduction_mem hymem)
      have hdone : (⟨p, 0 + p.rhs.length⟩ : Dotted).isActive = false := by
        simp [Dotted.isActive]
      obtain ⟨z, hz, hzform, htrees⟩ := exists_item_complete hg hacyclic hschema hpolicy hs hx hform
        hy' hyform' hdone hnext
      have hsub := IsProgress.substitute hg hp hnext hcs (u := .above p.lhs cs') rfl
      rw [hd] at hsub
      have hz' : .above d.production.lhs
          (cs ++ .above p.lhs cs' :: Tree.leaves (symbols ++ behind)) ∈ z.trees := by
        refine htrees _ (mem_completions.2 ⟨_, hmem, _, hymem', ?_⟩)
        rw [hdrop] at hsub
        simpa [Dotted.ofProduction] using hsub
      have hcs'' : g.Spells (d.production.rhs.take (d.dot + 1)) (cs ++ [.above p.lhs cs'])
          (v ++ u) := by
        rw [take_succ_of_next? hnext]
        exact hcs.append (.singleton_node hq hcs')
      have htokens₂ : tokens = (before ++ u) ++ w ++ rest := by simpa using htokens
      obtain ⟨z', hz', hzform', hmem'⟩ := ihts (d := ⟨d.production, d.dot + 1⟩) htokens₂ hp hdrop hz
        hzform hcs'' (by simpa using hz')
      exact ⟨z', hz', by simpa [Nat.add_comm, Nat.add_left_comm] using hzform',
        by simpa using hmem'⟩

/-- At the end of a run some goal carries every parse tree of the input. -/
lemma exists_goal_of_isParseTree {t : Tree} (h : g.IsParseTree tokens t) :
    ∃ p ∈ g.productions, p.lhs = g.start ∧ ∃ z ∈ s.chart.items,
      z.form = form (.complete p) 0 tokens.length ∧ t ∈ z.trees := by
  obtain ⟨p, hp, hstart, cs, rfl, hcs⟩ := ((isParseTree_iff hg).1 h).exists_of_nonterminal
  have hclosed := Deduction.isClosed_forms_of_finalState (isUnweighted_and_isUnambiguous hschema) hs
  have hmem : form (.ofProduction p) 0 0 ∈ s.chart.forms := hclosed.axioms_mem _
    ((mem_axioms hschema).2 ⟨p, hp, hstart, rfl⟩) _ (List.mem_singleton_self _)
  obtain ⟨x, hx, hform⟩ := Chart.mem_forms_iff.1 hmem
  obtain ⟨d, i, j, hform', -, -, -, -, hzero, -⟩ :=
    Deduction.holds_of_finalState (preserves_fits hg hschema) hs x hx
  obtain ⟨rfl, -, -⟩ := form_injective (hform'.symm.trans hform)
  have htokens : tokens = [] ++ tokens ++ [] := by simp
  obtain ⟨z, hz, hzform, hzmem⟩ := exists_item_of_spells hg hacyclic hschema hpolicy hs hcs
    htokens hp (drop_ofProduction p) hx hform .nil (above_mem_of_ofProduction_mem (hzero rfl))
  refine ⟨p, hp, hstart, z, hz, ?_, ?_⟩
  · simpa [Dotted.ofProduction, Dotted.complete] using hzform
  · simpa [Dotted.ofProduction, hstart] using hzmem

end Complete

/-- The trees of an outcome are parse trees. -/
lemma isParseTree_of_mem_trees (hg : g.IsWellFormed)
    (hschema : Schema.earley g tokens = .ok schema) {settings : Settings} {fuel : ℕ}
    {o : Outcome W} (h : Deduction.run settings schema fuel = .ok o) :
    ∀ t ∈ o.trees, g.IsParseTree tokens t := by
  obtain ⟨s, hs, rfl⟩ := Deduction.run_eq_ok h
  have hindexed := (Deduction.consistent_of_finalState hs).1.indexed
  intro t ht
  obtain ⟨x, hx, hgoal, ht⟩ := (Deduction.mem_trees_ofChart hindexed).1 ht
  obtain ⟨p, hp, hstart, hform⟩ := (exists_goal_iff hschema).1 hgoal
  obtain ⟨-, -, -, htrees⟩ :=
    (Deduction.holds_of_finalState (preserves_fits hg hschema) hs x hx).of_form hform
  have hspells := (htrees t ht).spells hp (by simp [Dotted.complete, Dotted.isActive])
  rw [span_length] at hspells
  exact (isParseTree_iff hg).2 (hstart ▸ hspells)

/-- Without cycles the trees of an outcome are exactly the parse trees. -/
lemma mem_trees_iff (hg : g.IsWellFormed) (hacyclic : g.IsAcyclic)
    (hschema : Schema.earley g tokens = .ok schema) {settings : Settings}
    (hpolicy : settings.policy = .accumulate) {fuel : ℕ} {o : Outcome W}
    (h : Deduction.run settings schema fuel = .ok o) :
    t ∈ o.trees ↔ g.IsParseTree tokens t := by
  refine ⟨isParseTree_of_mem_trees hg hschema h t, fun ht => ?_⟩
  obtain ⟨s, hs, rfl⟩ := Deduction.run_eq_ok h
  obtain ⟨p, hp, hstart, z, hz, hform, hmem⟩ :=
    exists_goal_of_isParseTree hg hacyclic hschema hpolicy hs ht
  exact (Deduction.mem_trees_ofChart (Deduction.consistent_of_finalState hs).1.indexed).2
    ⟨z, hz, (exists_goal_iff hschema).2 ⟨p, hp, hstart, hform⟩, hmem⟩

/-- For every grammar that is read from a file, every input and every run of Earley parsing that has
ended: the trees of the outcome are parse trees of the input, none of them twice. If no nonterminal
derives itself and all derivations are kept, they are all of its parse trees, whatever is ambiguous
or derives the empty string. -/
theorem earley_trees {file : String} (hread : GrammarFile.readContextFree file = .ok g)
    (hschema : Schema.earley g tokens = .ok schema) {settings : Settings} {fuel : ℕ}
    {o : Outcome W} (h : Deduction.run settings schema fuel = .ok o) :
    (∀ t ∈ o.trees, g.IsParseTree tokens t) ∧ o.trees.Nodup ∧
      (g.IsAcyclic → settings.policy = .accumulate →
        ∀ t, g.IsParseTree tokens t → t ∈ o.trees) := by
  have hg := GrammarFile.isWellFormed_of_readContextFree hread
  refine ⟨isParseTree_of_mem_trees hg hschema h, ?_, fun hacyclic hpolicy t ht =>
    (mem_trees_iff hg hacyclic hschema hpolicy h).2 ht⟩
  obtain ⟨s, -, rfl⟩ := Deduction.run_eq_ok h
  exact Choice.nodup_distinct _

/-- A file in which the start symbol is two parts, each of which is a letter or empty. -/
def partsFile : String :=
  "N = \x7b\"S\", \"A\"\x7d\nT = \x7b\"a\"\x7d\nS = \"S\"\n" ++
    "P = \x7b\"S -> A A\", \"A -> a\", \"A -> ε\"\x7d\n"

/-- The grammar in that file. -/
def partsGrammar : Grammar :=
  ⟨["S", "A"], ["a"], "S", [⟨"S", [.nonterminal "A", .nonterminal "A"]⟩, ⟨"A", [.terminal "a"]⟩,
    ⟨"A", []⟩]⟩

lemma read_partsFile : GrammarFile.readContextFree partsFile = .ok partsGrammar := by
  decide +kernel

lemma isAcyclic_partsGrammar : partsGrammar.IsAcyclic :=
  .of_rank (fun a => if a = "S" then 1 else 0) (by simp [partsGrammar])

/-- A run on one letter ends with the tree in which the first part is empty and with that in which
the second part is. -/
theorem earley_trees_parts :
    ∃ (schema : Schema Float) (fuel : ℕ) (o : Outcome Float),
      GrammarFile.readContextFree partsFile = .ok partsGrammar ∧
      Schema.earley partsGrammar ["a"] = .ok schema ∧
      Deduction.run ⟨.accumulate, none⟩ schema fuel = .ok o ∧
      .branch "S" [.branch "A" [.leaf epsilon], .branch "A" [.leaf "a"]] ∈ o.trees ∧
      .branch "S" [.branch "A" [.leaf "a"], .branch "A" [.leaf epsilon]] ∈ o.trees ∧
      o.trees.Nodup := by
  have hg := GrammarFile.isWellFormed_of_readContextFree read_partsFile
  obtain ⟨schema, hschema⟩ : ∃ schema : Schema Float,
      Schema.earley partsGrammar ["a"] = .ok schema := ⟨_, rfl⟩
  obtain ⟨fuel, o, h⟩ : ∃ fuel o, Deduction.run ⟨.accumulate, none⟩ schema fuel = .ok o :=
    Deduction.exists_run_of_composes rfl rfl (composes hg hschema)
  obtain ⟨-, hnodup, hall⟩ := earley_trees read_partsFile hschema h
  have hletter : partsGrammar.Spells [.terminal "a"] [.leaf "a"] ["a"] := .leaf "a" .nil
  have hparts : ∀ {ts w}, partsGrammar.Spells [.nonterminal "A", .nonterminal "A"] ts w →
      partsGrammar.Spells [.nonterminal "S"] [.above "S" ts] w :=
    fun hts => .singleton_node (p := ⟨"S", [.nonterminal "A", .nonterminal "A"]⟩)
      (by simp [partsGrammar]) hts
  have hfull : partsGrammar.Spells [.nonterminal "A"] [.above "A" [.leaf "a"]] ["a"] :=
    .singleton_node (p := ⟨"A", [.terminal "a"]⟩) (by simp [partsGrammar]) hletter
  have hempty : partsGrammar.Spells [.nonterminal "A"] [.above "A" []] [] :=
    .singleton_node (p := ⟨"A", []⟩) (by simp [partsGrammar]) .nil
  exact ⟨schema, fuel, o, read_partsFile, hschema, h,
    hall isAcyclic_partsGrammar rfl _ ((isParseTree_iff hg).2 (hparts (hempty.append hfull))),
    hall isAcyclic_partsGrammar rfl _ ((isParseTree_iff hg).2 (hparts (hfull.append hempty))),
    hnodup⟩

end Earley

end DeductiveParsing
