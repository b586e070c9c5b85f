/-
What an item of parsing with trees from the left says.

* `TreeEarley.Pass`: what a step makes of the parts of trees that the walk has passed;
* `TreeEarley.isDerived_of_pass`: all of them are derived trees;
* `TreeEarley.isDeclared_of_pass`: their inner nodes have nonterminals;
* `TreeEarley.isFound_of_pass`: they read the tokens of the item's span;
* `TreeEarley.Reached.step`: so every step concludes only what is true.
-/
import DeductiveParsing.Proofs.TreeAdjoining.Declared
import DeductiveParsing.Proofs.TreeAdjoining.Earley.Rules
import DeductiveParsing.Proofs.TreeAdjoining.Reads

namespace DeductiveParsing

open TreeAdjoining

variable {g : Grammar} {tokens : List String}

namespace TreeEarley

/-! ### Passing parts on -/

/-- What a step makes of the parts that its premises show. -/
inductive Pass (g : Grammar) (tokens : List String) : List Visited → Visited → Prop
  | scanToken {name a i gap j b us} (hb : g.node? name a = some b) (hleaf : b.children = [])
      (hterminal : b.label ∈ g.terminals) (htoken : tokens[j]? = some b.label) :
      Pass g tokens [(visitAt name a .leftAbove i gap j, us)]
        (visitAt name a .rightAbove i gap (j + 1), us ++ [b])
  | scanEmpty {name a i gap j b us} (hb : g.node? name a = some b)
      (hepsilon : b.isEpsilon = true) :
      Pass g tokens [(visitAt name a .leftAbove i gap j, us)]
        (visitAt name a .rightAbove i gap j, us ++ [b])
  | start {name a c j b} (hb : g.node? name a = some b)
      (hc : c = .leftAbove ∧ a = .root ∨ c = .leftBelow) (hj : j ≤ tokens.length) :
      Pass g tokens [] (visitAt name a c j .absent j, [])
  | fillFoot {aux p i j b} (hb : g.node? aux p = some b) (hfoot : b.foot = true) (hij : i ≤ j)
      (hj : j ≤ tokens.length) :
      Pass g tokens [(visitAt aux p .leftBelow i .absent i, [])]
        (visitAt aux p .rightBelow i ⟨some i, some j⟩ j, [b])
  | closeNode {name a i before j gap k adjoined joined b us w} (hb : g.node? name a = some b)
      (hlabel : b.label ∈ g.nonterminals) (hjoin : before.join? gap = some joined) :
      Pass g tokens [(visitAt name a .leftAbove i before j, us),
          (⟨name, a, Corner.rightBelow.text, j, gap, k, adjoined⟩, [w])]
        (visitAt name a .rightAbove i joined k, us ++ [w])
  | wrap {aux i k l j name a gap u w} (hadjoin : g.isAdjoinable aux name a = true) :
      Pass g tokens [(visitAt aux .root .rightAbove i ⟨some k, some l⟩ j, [u]),
          (visitAt name a .rightBelow k gap l, [w])]
        (⟨name, a, Corner.rightBelow.text, i, gap, j, true⟩, [Tree.atFoot w u])
  | goDown {name a i gap j b} (hb : g.node? name (a.child 1) = some b) :
      Pass g tokens [(visitAt name a .leftBelow i gap j, [])]
        (visitAt name (a.child 1) .leftAbove i gap j, [])
  | goRight {name} {p : Address} {n i gap j b us}
      (hb : g.node? name (p.child (n + 1)) = some b) :
      Pass g tokens [(visitAt name (p.child n) .rightAbove i gap j, us)]
        (visitAt name (p.child (n + 1)) .leftAbove i gap j, us)
  | goUp {name} {p : Address} {n i gap j b us} (hb : g.node? name p = some b)
      (hlast : g.node? name (p.child (n + 1)) = none) :
      Pass g tokens [(visitAt name (p.child n) .rightAbove i gap j, us)]
        (visitAt name p .rightBelow i gap j, [{ b with children := us }])
  | fillNode {name a source alpha i j b u} (hb : g.node? name a = some b) (hsite : g.IsSite b)
      (hmem : (source, alpha) ∈ g.initial) (hlabel : alpha.label = b.label) :
      Pass g tokens [(visitAt source .root .rightAbove i .absent j, [u])]
        (visitAt name a .rightBelow i .absent j, [u])

/-! ### Derived parts -/

/-- The trees that the walk has passed at a station of a node behind `elders`: the siblings above
the node, the node itself on its right side, and none below it on its left side. -/
def passed (elders : List Tree) (t : Tree) : Corner → List Tree
  | .leftAbove => elders
  | .leftBelow => []
  | .rightBelow => [t]
  | .rightAbove => elders ++ [t]

/-- Trees derived from those that the walk has passed. If nothing has been adjoined at an inner
node, only its children are derived when the walk is below it. -/
structure Passes (g : Grammar) (adjoined : Bool) (elders : List Tree) (t : Tree) (c : Corner)
    (us : List Tree) : Prop where
  derives : List.Forall₂ (g.Derives g.MayStay) (passed elders t c) us
  unadjoined : c = .rightBelow → adjoined = false → t.children ≠ [] →
    ∃ ws, List.Forall₂ (g.Derives g.MayStay) t.children ws ∧ us = [{ t with children := ws }]

/-- Whether parts are derived from what the walk has passed. -/
def IsDerived (g : Grammar) (p : Visited) : Prop :=
  ∃ c b, p.1.corner = c.text ∧ g.node? p.1.tree p.1.node = some b ∧
    Passes g p.1.adjoined (g.elders p.1.tree p.1.node) b c p.2

section IsDerived

variable {v : NodeVisit} {c : Corner} {b t u w z : Tree} {us : List Tree} {name : String}

lemma IsDerived.exists_passes (h : IsDerived g (v, us)) (hcorner : v.corner = c.text) :
    ∃ b, g.node? v.tree v.node = some b ∧
      Passes g v.adjoined (g.elders v.tree v.node) b c us := by
  obtain ⟨c', b, hc, hb, hpasses⟩ := h
  obtain rfl := Corner.text_injective (hcorner.symm.trans hc)
  exact ⟨b, hb, hpasses⟩

lemma IsDerived.passes (h : IsDerived g (v, us)) (hcorner : v.corner = c.text)
    (hb : g.node? v.tree v.node = some b) :
    Passes g v.adjoined (g.elders v.tree v.node) b c us := by
  obtain ⟨b', hb', hpasses⟩ := h.exists_passes hcorner
  obtain rfl := Option.some.inj (hb.symm.trans hb')
  exact hpasses

lemma IsDerived.eq_nil_of_leftBelow (h : IsDerived g (v, us))
    (hcorner : v.corner = Corner.leftBelow.text) : us = [] := by
  obtain ⟨b, -, hpasses⟩ := h.exists_passes hcorner
  exact List.forall₂_nil_left_iff.1 hpasses.derives

lemma IsDerived.exists_of_rightBelow (h : IsDerived g (v, us))
    (hcorner : v.corner = Corner.rightBelow.text) : ∃ u, us = [u] := by
  obtain ⟨b, -, hpasses⟩ := h.exists_passes hcorner
  exact List.length_eq_one_iff.1 hpasses.derives.length_eq.symm

lemma IsDerived.exists_of_rightRoot (h : IsDerived g (v, us))
    (hcorner : v.corner = Corner.rightAbove.text) (hroot : v.node = .root) : ∃ u, us = [u] := by
  obtain ⟨b, -, hpasses⟩ := h.exists_passes hcorner
  rw [hroot] at hpasses
  exact List.length_eq_one_iff.1 hpasses.derives.length_eq.symm

/-- Below a node on its right side the walk has passed one derived tree. -/
lemma IsDerived.derives_below (h : IsDerived g (v, [u]))
    (hcorner : v.corner = Corner.rightBelow.text) (hb : g.node? v.tree v.node = some b) :
    g.Derives g.MayStay b u := by
  cases (h.passes hcorner hb).derives with
  | cons hu _ => exact hu

/-- Around the root of a tree the walk has passed one derived tree. -/
lemma IsDerived.derives_root {i j : ℕ} {gap : Gap} (htree : g.tree? name = some t)
    (h : IsDerived g (visitAt name .root .rightAbove i gap j, [u])) :
    g.Derives g.MayStay t u := by
  have hpasses := h.passes (c := .rightAbove) rfl ((g.node?_root name).trans htree)
  cases hpasses.derives with
  | cons hu _ => exact hu

lemma hasLeafFeet_tree (hfeet : g.HasLeafFeet) (hmem : (name, t) ∈ g.trees) :
    t.HasLeafFeet := by
  intro u hu hfoot
  obtain ⟨node, hnode, rfl⟩ := List.mem_map.1 hu
  exact Tree.isLeaf_iff.1 (hfeet _ hmem node hnode hfoot)

/-- Behind a last child all children of the parent are derived. -/
lemma IsDerived.children {p : Address} {n i j : ℕ} {gap : Gap} (hb : g.node? name p = some b)
    (hlast : g.node? name (p.child (n + 1)) = none)
    (h : IsDerived g (visitAt name (p.child n) .rightAbove i gap j, us)) :
    b.children ≠ [] ∧ List.Forall₂ (g.Derives g.MayStay) b.children us := by
  obtain ⟨c, hc, hpasses⟩ := h.exists_passes (c := .rightAbove) rfl
  obtain ⟨parent, hparent, hchildren⟩ := Grammar.exists_parent_of_last_child hc hlast
  obtain rfl := Option.some.inj (hb.symm.trans hparent)
  rw [hchildren]
  exact ⟨by simp, hpasses.derives⟩

/-- What an auxiliary tree is adjoined to stands at its foot. -/
lemma eq_atFoot_of_wrap (hg : g.IsWellFormed) (hfeet : g.HasLeafFeet) {aux : String}
    {a f : Address} {i j k l : ℕ} {gap gap' : Gap} (hadjoin : g.isAdjoinable aux name a = true)
    (hu : IsDerived g (visitAt aux .root .rightAbove i gap j, [u]))
    (hw : IsDerived g (visitAt name a .rightBelow k gap' l, [w])) (hf : u.footAddress? = some f)
    (hz : u.replaceAt? f { w with foot := false } = some z) : z = Tree.atFoot w u := by
  obtain ⟨beta, b, hbeta, hb, hinner, -⟩ := Grammar.isAdjoinable_iff.1 hadjoin
  have hmem := mem_of_lookup_eq_some hbeta
  have hderives := hu.derives_root (hg.tree?_of_auxiliary hmem).2
  obtain ⟨ws, -, hws⟩ := (hw.passes (c := .rightBelow) rfl hb).unadjoined rfl rfl hinner
  obtain rfl := (List.cons.inj hws).1
  have hbfoot : b.foot = false := by
    rw [Bool.eq_false_iff]
    exact fun hfoot => hinner (hg.isLeaf_of_foot hfeet hb hfoot)
  rw [← hbfoot] at hz
  -- the foot that is found is the only one, and a leaf
  obtain ⟨x, hx, hfoot⟩ := Tree.exists_of_find? hf
  have hone : u.frontier.count none = 1 := by
    rw [hg.count_none_derives hfeet hderives, hg.count_none_auxiliary hfeet hmem]
  have hleaf := hderives.everywhere Tree.isInherited_leafFoot
    (fun named hnamed => hasLeafFeet_tree hfeet hnamed)
    (hasLeafFeet_tree hfeet (List.mem_append_right _ hmem))
  refine Tree.eq_atFoot_of_replaceOn? hone hx (hleaf x ?_ hfoot) hfoot hz
  exact List.mem_map.2 ⟨(f, x), Tree.mem_nodes.2 hx, rfl⟩

/-- Passing parts on leads to derived parts. -/
theorem isDerived_of_pass (hg : g.IsWellFormed) (hfeet : g.HasLeafFeet) {ps : List Visited}
    {q : Visited} (hpass : Pass g tokens ps q) (hps : ∀ p ∈ ps, IsDerived g p) :
    IsDerived g q := by
  have hfirst : ∀ {p rest}, ps = p :: rest → IsDerived g p := by
    rintro p rest rfl
    exact hps p List.mem_cons_self
  have hsecond : ∀ {p p' rest}, ps = p :: p' :: rest → IsDerived g p' := by
    rintro p p' rest rfl
    exact hps p' (List.mem_cons_of_mem _ List.mem_cons_self)
  cases hpass with
  | @scanToken name a i gap j b us hb hleaf hterminal htoken =>
      have hpasses := (hfirst rfl).passes (c := .leftAbove) rfl hb
      refine ⟨.rightAbove, b, rfl, hb, ?_, fun h => by cases h⟩
      exact List.rel_append hpasses.derives
        (.cons (.stay hleaf (Or.inr (Or.inr hterminal))) .nil)
  | @scanEmpty name a i gap j b us hb hepsilon =>
      have hpasses := (hfirst rfl).passes (c := .leftAbove) rfl hb
      refine ⟨.rightAbove, b, rfl, hb, ?_, fun h => by cases h⟩
      exact List.rel_append hpasses.derives
        (.cons (.stay (Tree.isEpsilon_iff.1 hepsilon).1 (Or.inr (Or.inl hepsilon))) .nil)
  | @start name a c j b hb hc hj =>
      refine ⟨c, b, rfl, hb, ?_, fun h => ?_⟩
      · rcases hc with ⟨rfl, rfl⟩ | rfl
        · exact .nil
        · exact .nil
      · rcases hc with ⟨rfl, -⟩ | rfl <;> cases h
  | @fillFoot aux p i j b hb hfoot hij hj =>
      have hleaf := hg.isLeaf_of_foot hfeet hb hfoot
      exact ⟨.rightBelow, b, rfl, hb, .cons (.stay hleaf (Or.inl hfoot)) .nil,
        fun _ _ hinner => absurd hleaf hinner⟩
  | @closeNode name a i before j gap k adjoined joined b us w hb hlabel hjoin =>
      have hpasses := (hfirst rfl).passes (c := .leftAbove) rfl hb
      have hpasses' := (hsecond rfl).passes (c := .rightBelow) rfl hb
      exact ⟨.rightAbove, b, rfl, hb, List.rel_append hpasses.derives hpasses'.derives,
        fun h => by cases h⟩
  | @wrap aux i k l j name a gap u w hadjoin =>
      obtain ⟨beta, b, hbeta, hb, hinner, hlabel⟩ := Grammar.isAdjoinable_iff.1 hadjoin
      have hmem := mem_of_lookup_eq_some hbeta
      have hu := (hfirst rfl).derives_root (hg.tree?_of_auxiliary hmem).2
      have hpasses := (hsecond rfl).passes (c := .rightBelow) rfl hb
      obtain ⟨ws, hws, hw⟩ := hpasses.unadjoined rfl rfl hinner
      obtain rfl := (List.cons.inj hw).1
      exact ⟨.rightBelow, b, rfl, hb, .cons (.adjoin hinner hws hmem hlabel.symm hu) .nil,
        fun _ h => by cases h⟩
  | @goDown name a i gap j b hb =>
      obtain ⟨_, parent, _, hparent, -⟩ := Grammar.exists_parent_of_node?_child hb
      refine ⟨.leftAbove, b, rfl, hb, ?_, fun h => by cases h⟩
      show List.Forall₂ _ (g.elders name (a.child 1)) []
      rw [show (1 : ℕ) = 0 + 1 from rfl, Grammar.elders_child hparent]
      exact .nil
  | @goRight name p n i gap j b us hb =>
      obtain ⟨b', hb', hpasses⟩ := (hfirst rfl).exists_passes (c := .rightAbove) rfl
      refine ⟨.leftAbove, b, rfl, hb, ?_, fun h => by cases h⟩
      show List.Forall₂ _ (g.elders name (p.child (n + 1))) us
      rw [Grammar.elders_sibling hb']
      exact hpasses.derives
  | @goUp name p n i gap j b us hb hlast =>
      obtain ⟨hinner, hus⟩ := (hfirst rfl).children hb hlast
      exact ⟨.rightBelow, b, rfl, hb, .cons (.inner hinner hus) .nil,
        fun _ _ _ => ⟨us, hus, rfl⟩⟩
  | @fillNode name a source alpha i j b u hb hsite hmem hlabel =>
      have hu := (hfirst rfl).derives_root (hg.tree?_of_initial hmem).2
      exact ⟨.rightBelow, b, rfl, hb, .cons (.substitute hsite hmem hlabel hu) .nil,
        fun _ _ hinner => absurd hsite.1 hinner⟩

end IsDerived

/-! ### Inner nodes of parts -/

/-- Whether all inner nodes of parts have nonterminals, except for the one that the walk is still
below of. -/
def IsDeclared (g : Grammar) (p : Visited) : Prop :=
  ∀ u ∈ p.2, (p.1.corner = Corner.rightBelow.text ∨ g.IsDeclared u) ∧
    ∀ c ∈ u.children, c.Everywhere g.IsDeclared

section IsDeclared

variable {v : NodeVisit} {c : Corner} {us : List Tree}

/-- Above a node there is no such exception. -/
lemma IsDeclared.everywhere (h : IsDeclared g (v, us)) (hcorner : v.corner = c.text)
    (hc : c ≠ .rightBelow) : ∀ u ∈ us, u.Everywhere g.IsDeclared := fun u hu =>
  Tree.everywhere_iff.2 ⟨(h u hu).1.resolve_left fun hbelow =>
    hc (Corner.text_injective (hcorner.symm.trans hbelow)), (h u hu).2⟩

lemma isDeclared_of_everywhere (h : ∀ u ∈ us, u.Everywhere g.IsDeclared) :
    IsDeclared g (v, us) := fun u hu =>
  have hall := Tree.everywhere_iff.1 (h u hu)
  ⟨Or.inr hall.1, hall.2⟩

/-- Passing parts on leads to parts whose inner nodes have nonterminals, since the walk comes above
a node on its right side only if it has one. -/
theorem isDeclared_of_pass (hg : g.IsWellFormed) (hfeet : g.HasLeafFeet) {ps : List Visited}
    {q : Visited} (hpass : Pass g tokens ps q) (hderived : ∀ p ∈ ps, IsDerived g p)
    (hps : ∀ p ∈ ps, IsDeclared g p) : IsDeclared g q := by
  have hfirst : ∀ {p rest}, ps = p :: rest → IsDerived g p ∧ IsDeclared g p := by
    rintro p rest rfl
    exact ⟨hderived p List.mem_cons_self, hps p List.mem_cons_self⟩
  have hsecond : ∀ {p p' rest}, ps = p :: p' :: rest → IsDerived g p' ∧ IsDeclared g p' := by
    rintro p p' rest rfl
    have hmem : p' ∈ p :: p' :: rest := List.mem_cons_of_mem _ List.mem_cons_self
    exact ⟨hderived p' hmem, hps p' hmem⟩
  have happend : ∀ {v : NodeVisit} {us : List Tree} {w : Tree},
      (∀ u ∈ us, u.Everywhere g.IsDeclared) → w.Everywhere g.IsDeclared →
        IsDeclared g (v, us ++ [w]) := fun hus hw =>
    isDeclared_of_everywhere (List.forall_mem_append.2 ⟨hus, List.forall_mem_singleton.2 hw⟩)
  cases hpass with
  | scanToken hb hleaf hterminal htoken =>
      exact happend ((hfirst rfl).2.everywhere (c := .leftAbove) rfl (by decide))
        (Grammar.everywhere_isDeclared_of_leaf hleaf)
  | scanEmpty hb hepsilon =>
      exact happend ((hfirst rfl).2.everywhere (c := .leftAbove) rfl (by decide))
        (Grammar.everywhere_isDeclared_of_leaf (Tree.isEpsilon_iff.1 hepsilon).1)
  | start hb hc hj => exact fun u hu => absurd hu List.not_mem_nil
  | fillFoot hb hfoot hij hj =>
      exact isDeclared_of_everywhere (List.forall_mem_singleton.2
        (Grammar.everywhere_isDeclared_of_leaf (hg.isLeaf_of_foot hfeet hb hfoot)))
  | @closeNode name a i before j gap k adjoined joined b us w hb hlabel hjoin =>
      obtain ⟨hbelow, hdeclared⟩ := hsecond rfl
      have hw : w.label = b.label := (hbelow.derives_below rfl hb).label_eq
      exact happend ((hfirst rfl).2.everywhere (c := .leftAbove) rfl (by decide))
        (Tree.everywhere_iff.2 ⟨fun _ => hw ▸ hlabel, (hdeclared w (List.mem_singleton_self w)).2⟩)
  | @wrap aux i k l j name a gap u w hadjoin =>
      obtain ⟨beta, b, hbeta, hb, -, hlabel⟩ := Grammar.isAdjoinable_iff.1 hadjoin
      have hround := (hfirst rfl).1.derives_root
        (hg.tree?_of_auxiliary (mem_of_lookup_eq_some hbeta)).2
      have hbelow := (hsecond rfl).1.derives_below rfl hb
      have hu := (hfirst rfl).2.everywhere (c := .rightAbove) rfl (by decide) u
        (List.mem_singleton_self u)
      have hw := ((hsecond rfl).2 w (List.mem_singleton_self w)).2
      refine List.forall_mem_singleton.2 ⟨Or.inl rfl, ?_⟩
      by_cases hleaf : u.children = []
      · cases hfoot : u.foot with
        | true => rwa [Tree.atFoot_of_foot w hleaf hfoot]
        | false => simp [Tree.atFoot_of_leaf w hleaf hfoot, hleaf]
      · -- the root of the auxiliary tree has the label of the node that it adjoins to
        have hsame : w.label = u.label := by
          rw [hbelow.label_eq, hlabel, hround.label_eq]
        have hinner : w.Everywhere g.IsDeclared :=
          Tree.everywhere_iff.2 ⟨fun _ => hsame ▸ (Tree.everywhere_iff.1 hu).1 hleaf, hw⟩
        exact (Tree.everywhere_iff.1
          (hu.atFoot (Grammar.isInherited_isDeclared g) hinner)).2
  | goDown hb => exact fun u hu => absurd hu List.not_mem_nil
  | goRight hb =>
      exact isDeclared_of_everywhere ((hfirst rfl).2.everywhere (c := .rightAbove) rfl (by decide))
  | goUp hb hlast =>
      exact List.forall_mem_singleton.2
        ⟨Or.inl rfl, (hfirst rfl).2.everywhere (c := .rightAbove) rfl (by decide)⟩
  | fillNode hb hsite hmem hlabel =>
      exact isDeclared_of_everywhere ((hfirst rfl).2.everywhere (c := .rightAbove) rfl (by decide))

end IsDeclared

/-! ### Read parts -/

/-- How leaves are read from one place to another. The exception to `Reads` are spans without a gap
where the label of a foot has been read as a token or as the empty string. They lead to nothing but
spans of the same kind. -/
inductive IsRead (tokens : List String) (leaves : List (Option String)) (i : ℕ) (gap : Gap)
    (j : ℕ) : Prop where
  | found (reads : Reads tokens leaves i gap j)
  | misread (hole : none ∈ leaves) (gap_eq : gap = .absent) (le : i ≤ j)
      (stop_le : j ≤ tokens.length)

section IsRead

variable {leaves leaves' : List (Option String)} {i j k l : ℕ} {gap gap' joined : Gap} {b : Tree}

lemma IsRead.le (h : IsRead tokens leaves i gap j) : i ≤ j ∧ j ≤ tokens.length := by
  cases h with
  | found reads => exact reads.le
  | misread _ _ le stop_le => exact ⟨le, stop_le⟩

/-- What two neighbours read, they read together. -/
lemma IsRead.append (hcount : (leaves ++ leaves').count none ≤ 1)
    (h : IsRead tokens leaves i gap k) (h' : IsRead tokens leaves' k gap' j)
    (hjoin : gap.join? gap' = some joined) : IsRead tokens (leaves ++ leaves') i joined j := by
  rw [List.count_append] at hcount
  have hle := h.le.1.trans h'.le.1
  cases h with
  | found reads =>
      cases h' with
      | found reads' => exact .found (reads.append reads' hjoin)
      | misread hole gap_eq _ stop_le =>
          -- the hole is behind the leaves that have been found
          have hpos := List.count_pos_iff.2 hole
          have hnone : none ∉ leaves := List.count_eq_zero.1 (by omega)
          rw [gap_eq, Gap.join?_absent_right, reads.gap_eq_absent hnone, Option.some.injEq] at hjoin
          exact .misread (List.mem_append_right _ hole) hjoin.symm hle stop_le
  | misread hole gap_eq =>
      refine .misread (List.mem_append_left _ hole) ?_ hle h'.le.2
      have hpos := List.count_pos_iff.2 hole
      have hnone : none ∉ leaves' := List.count_eq_zero.1 (by omega)
      rw [gap_eq, Gap.join?_absent_left, Option.some.injEq] at hjoin
      subst hjoin
      cases h' with
      | found reads' => exact reads'.gap_eq_absent hnone
      | misread hole' => exact absurd hole' hnone

/-- A tree with a gap takes up what is read in the gap. -/
lemma IsRead.fill (h : IsRead tokens leaves i ⟨some k, some l⟩ j)
    (h' : IsRead tokens leaves' k gap l) :
    IsRead tokens (leaves.flatMap (Tree.fillHole leaves')) i gap j := by
  cases h with
  | misread _ gap_eq => cases gap_eq
  | found reads =>
      cases h' with
      | found reads' => exact .found (reads.fill reads')
      | misread hole gap_eq =>
          refine .misread (List.mem_flatMap.2 ⟨none, ?_, hole⟩) gap_eq reads.le.1 reads.le.2
          by_contra hnone
          cases reads.gap_eq_absent hnone

/-- A leaf with a terminal is the next token. -/
lemma isRead_scanToken (hepsilon : epsilon ∉ g.terminals) (hlabel : b.foot = false → b.label ≠ "")
    (hleaf : b.children = []) (hterminal : b.label ∈ g.terminals)
    (htoken : tokens[j]? = some b.label) : IsRead tokens b.frontier j .absent (j + 1) := by
  have hlt : j < tokens.length := (List.getElem?_eq_some_iff.1 htoken).1
  cases hfoot : b.foot with
  | true => exact .misread (by simp [Tree.frontier_of_foot hleaf hfoot]) rfl (Nat.le_succ j) hlt
  | false =>
      have hvisible : b.isEpsilon = false := by
        rw [Bool.eq_false_iff]
        intro h
        rcases (Tree.isEpsilon_iff.1 h).2 with h | h
        · exact hepsilon (h ▸ hterminal)
        · exact hlabel hfoot h
      rw [Tree.frontier_of_label hleaf hfoot hvisible]
      exact .found (.token htoken (.nil hlt))

/-- A leaf for the empty string needs no token. -/
lemma isRead_scanEmpty (hempty : b.isEpsilon = true) (hj : j ≤ tokens.length) :
    IsRead tokens b.frontier j .absent j := by
  cases hfoot : b.foot with
  | true =>
      exact .misread (by simp [Tree.frontier_of_foot (Tree.isEpsilon_iff.1 hempty).1 hfoot]) rfl
        le_rfl hj
  | false =>
      rw [Tree.frontier_of_isEpsilon hempty hfoot]
      exact .found (.nil hj)

end IsRead

/-- Whether parts are derived, with nonterminals at their inner nodes, and the walk has read
them. -/
structure IsFound (g : Grammar) (tokens : List String) (p : Visited) : Prop where
  derived : IsDerived g p
  declared : IsDeclared g p
  read : IsRead tokens (p.2.flatMap Tree.frontier) p.1.start p.1.gap p.1.stop

/-- Passing parts on leads to parts that have been read. -/
theorem isFound_of_pass (hg : g.IsWellFormed) (hfeet : g.HasLeafFeet)
    (hepsilon : epsilon ∉ g.terminals) {ps : List Visited} {q : Visited}
    (hpass : Pass g tokens ps q) (hps : ∀ p ∈ ps, IsFound g tokens p) : IsFound g tokens q := by
  have hparts : ∀ p ∈ ps, IsDerived g p := fun p hp => (hps p hp).derived
  have hderived := isDerived_of_pass hg hfeet hpass hparts
  refine ⟨hderived, isDeclared_of_pass hg hfeet hpass hparts fun p hp => (hps p hp).declared, ?_⟩
  have hfirst : ∀ {p rest}, ps = p :: rest →
      IsRead tokens (p.2.flatMap Tree.frontier) p.1.start p.1.gap p.1.stop := by
    rintro p rest rfl
    exact (hps p List.mem_cons_self).read
  have hsecond : ∀ {p p' rest}, ps = p :: p' :: rest →
      IsRead tokens (p'.2.flatMap Tree.frontier) p'.1.start p'.1.gap p'.1.stop := by
    rintro p p' rest rfl
    exact (hps p' (List.mem_cons_of_mem _ List.mem_cons_self)).read
  -- there is no more than one hole above a node and in it
  have hcount : ∀ {name a i gap j b us}, g.node? name a = some b →
      IsDerived g (visitAt name a .rightAbove i gap j, us) →
        (us.flatMap Tree.frontier).count none ≤ 1 := by
    intro name a i gap j b us hb h
    rw [hg.count_none_forall₂ hfeet (h.passes (c := .rightAbove) rfl hb).derives]
    exact hg.count_none_elders_le_one hfeet hb
  cases hpass with
  | scanToken hb hleaf hterminal htoken =>
      have hle := hcount hb hderived
      rw [List.flatMap_append, List.flatMap_singleton] at hle ⊢
      exact (hfirst rfl).append hle
        (isRead_scanToken hepsilon (hg.label_ne_empty hb) hleaf hterminal htoken)
        (Gap.join?_absent_right _)
  | scanEmpty hb hempty =>
      have hle := hcount hb hderived
      rw [List.flatMap_append, List.flatMap_singleton] at hle ⊢
      exact (hfirst rfl).append hle (isRead_scanEmpty hempty (hfirst rfl).le.2)
        (Gap.join?_absent_right _)
  | start hb hc hj => exact .found (.nil hj)
  | fillFoot hb hfoot hij hj =>
      rw [List.flatMap_singleton, Tree.frontier_of_foot (hg.isLeaf_of_foot hfeet hb hfoot) hfoot]
      exact .found (.hole hij (.nil hj))
  | closeNode hb hlabel hjoin =>
      have hle := hcount hb hderived
      have hbelow := hsecond rfl
      rw [List.flatMap_append] at hle ⊢
      exact (hfirst rfl).append hle hbelow hjoin
  | wrap hadjoin =>
      have haround := hfirst rfl
      have hbelow := hsecond rfl
      rw [List.flatMap_singleton] at haround hbelow ⊢
      rw [Tree.frontier_atFoot]
      exact haround.fill hbelow
  | goDown hb =>
      have hsame := hfirst rfl
      exact hsame
  | goRight hb =>
      have hsame := hfirst rfl
      exact hsame
  | goUp hb hlast =>
      have hsame := hfirst rfl
      obtain ⟨hinner, hus⟩ := (hps _ List.mem_cons_self).derived.children hb hlast
      rw [List.flatMap_singleton, g.frontier_with_children hinner hus]
      exact hsame
  | fillNode hb hsite hmem hlabel =>
      have hsame := hfirst rfl
      exact hsame

/-! ### Reached stations -/

/-- What an item says. -/
def Reached (g : Grammar) (tokens : List String) (v : NodeVisit) : Prop :=
  ∃ us, IsFound g tokens (v, us)

lemma Reached.le {v : NodeVisit} (h : Reached g tokens v) :
    v.start ≤ v.stop ∧ v.stop ≤ tokens.length := by
  obtain ⟨_, hus⟩ := h
  exact hus.read.le

/-- A walk begins above the root of a tree. -/
lemma Reached.begin_root (hg : g.IsWellFormed) (hfeet : g.HasLeafFeet)
    (hepsilon : epsilon ∉ g.terminals) {name : String} {t : Tree} {j : ℕ}
    (htree : g.tree? name = some t) (hj : j ≤ tokens.length) :
    Reached g tokens (visitAt name .root .leftAbove j .absent j) :=
  ⟨[], isFound_of_pass hg hfeet hepsilon
    (.start ((g.node?_root name).trans htree) (Or.inl ⟨rfl, rfl⟩) hj) (by simp)⟩

/-- A step leads from true items to true items only. -/
theorem Reached.step (hg : g.IsWellFormed) (hfeet : g.HasLeafFeet)
    (hepsilon : epsilon ∉ g.terminals) {ps : List Visited} {q : Visited}
    (hstep : Step g tokens ps q) (hps : ∀ p ∈ ps, Reached g tokens p.1) :
    Reached g tokens q.1 := by
  have hfirst : ∀ {p rest}, ps = p :: rest → Reached g tokens p.1 := by
    rintro p rest rfl
    exact hps p List.mem_cons_self
  have hsecond : ∀ {p p' rest}, ps = p :: p' :: rest → Reached g tokens p'.1 := by
    rintro p p' rest rfl
    exact hps p' (List.mem_cons_of_mem _ List.mem_cons_self)
  have hnone : ∀ {v us}, Pass g tokens [] (v, us) → Reached g tokens v := fun hpass =>
    ⟨_, isFound_of_pass hg hfeet hepsilon hpass (by simp)⟩
  have hone : ∀ {p v us}, Pass g tokens [p] (v, us) → IsFound g tokens p →
      Reached g tokens v := fun hpass hp =>
    ⟨_, isFound_of_pass hg hfeet hepsilon hpass (by simpa using hp)⟩
  have htwo : ∀ {p p' v us}, Pass g tokens [p, p'] (v, us) → IsFound g tokens p →
      IsFound g tokens p' → Reached g tokens v := fun hpass hp hp' =>
    ⟨_, isFound_of_pass hg hfeet hepsilon hpass (by simp [hp, hp'])⟩
  cases hstep with
  | scanToken hb hleaf hterminal htoken =>
      obtain ⟨us, hus⟩ := hfirst rfl
      exact hone (.scanToken hb hleaf hterminal htoken) hus
  | scanEmpty hb hempty =>
      obtain ⟨us, hus⟩ := hfirst rfl
      exact hone (.scanEmpty hb hempty) hus
  | beginAuxiliary hmem hadjoin =>
      exact .begin_root hg hfeet hepsilon (hg.tree?_of_auxiliary hmem).2 (hfirst rfl).le.2
  | goBelow hb hlabel hsite => exact hnone (.start hb (Or.inr rfl) (hfirst rfl).le.2)
  | beginSite hfoot hadjoin htree =>
      obtain ⟨_, b, -, hb, -⟩ := Grammar.isAdjoinable_iff.1 hadjoin
      exact hnone (.start hb (Or.inr rfl) (hfirst rfl).le.2)
  | beginInitial hb hsite hmem hlabel =>
      exact .begin_root hg hfeet hepsilon (hg.tree?_of_initial hmem).2 (hfirst rfl).le.2
  | fillFoot hfoot hadjoin =>
      obtain ⟨b, hb, hbfoot⟩ := hg.foot?_eq_some_iff.1 hfoot
      obtain ⟨us, hus⟩ := hsecond rfl
      obtain rfl := hus.derived.eq_nil_of_leftBelow rfl
      exact hone (.fillFoot hb hbfoot (hfirst rfl).le.1 (hfirst rfl).le.2) hus
  | closeNode hb hlabel hjoin =>
      obtain ⟨us, hus⟩ := hfirst rfl
      obtain ⟨ws, hws⟩ := hsecond rfl
      obtain ⟨w, rfl⟩ := hws.derived.exists_of_rightBelow rfl
      exact htwo (.closeNode hb hlabel hjoin) hus hws
  | wrap hadjoin =>
      obtain ⟨us, hus⟩ := hfirst rfl
      obtain ⟨ws, hws⟩ := hsecond rfl
      obtain ⟨u, rfl⟩ := hus.derived.exists_of_rightRoot rfl rfl
      obtain ⟨w, rfl⟩ := hws.derived.exists_of_rightBelow rfl
      exact htwo (.wrap hadjoin) hus hws
  | goDown hchild =>
      obtain ⟨b, hb⟩ := Option.isSome_iff_exists.1 hchild
      obtain ⟨us, hus⟩ := hfirst rfl
      obtain rfl := hus.derived.eq_nil_of_leftBelow rfl
      exact hone (.goDown hb) hus
  | goRight hsibling =>
      obtain ⟨b, hb⟩ := Option.isSome_iff_exists.1 hsibling
      obtain ⟨us, hus⟩ := hfirst rfl
      exact hone (.goRight hb) hus
  | goUp hlast =>
      obtain ⟨us, hus⟩ := hfirst rfl
      obtain ⟨c, hc, -⟩ := hus.derived.exists_passes (c := .rightAbove) rfl
      obtain ⟨b, hb, -⟩ := Grammar.exists_parent_of_last_child hc hlast
      exact hone (.goUp hb hlast) hus
  | fillNode htarget hb hsite hmem hlabel =>
      obtain ⟨us, hus⟩ := hfirst rfl
      obtain ⟨u, rfl⟩ := hus.derived.exists_of_rightRoot rfl rfl
      exact hone (.fillNode (Grammar.node?_eq_some_iff.2 ⟨_, htarget, hb⟩) hsite hmem hlabel) hus

end TreeEarley

end DeductiveParsing
