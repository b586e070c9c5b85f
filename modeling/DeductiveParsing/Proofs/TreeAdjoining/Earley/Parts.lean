/-
What the trees of items are made of.

* `TreeEarley.Shows`: the parts of a tree that the walk has passed at a station of a node;
* `TreeEarley.IsPreserved`: what passing parts on and exchanging parts of trees preserves;
* `TreeEarley.carries_of_step`: the trees that a step leads to have that, with their passed parts;
* `TreeEarley.preserves_isCarrier`: so do all trees of a run;
* `TreeEarley.exists_keeps_of_step`: at its end, no tree that a step leads to is lost.
-/
import DeductiveParsing.Proofs.Deduction.Forests
import DeductiveParsing.Proofs.TreeAdjoining.Earley.Visits

namespace DeductiveParsing

open TreeAdjoining

variable {g : Grammar} {tokens : List String}

namespace TreeEarley

/-! ### Passed parts -/

/-- The parts of a tree that the walk around a node has passed at a station. Above the node these
are the first trees below the parent, behind which all others are still elementary. Below the node,
and above a root, it is the whole subtree or nothing. -/
inductive Shows (g : Grammar) (name : String) : Address → Corner → Tree → List Tree → Prop
  | leftRoot {t : Tree} (htree : g.tree? name = some t) : Shows g name .root .leftAbove t []
  | leftChild {p : Address} {n : ℕ} {b t : Tree} {us : List Tree} (hb : g.node? name p = some b)
      (hlength : us.length = n)
      (hp : t.subtreeAt? p = some { b with children := us ++ b.children.drop n }) :
      Shows g name (p.child (n + 1)) .leftAbove t us
  | leftBelow {a : Address} {b t : Tree} (hb : g.node? name a = some b)
      (ht : t.subtreeAt? a = some b) : Shows g name a .leftBelow t []
  | rightBelow {a : Address} {t u : Tree} (hu : t.subtreeAt? a = some u) :
      Shows g name a .rightBelow t [u]
  | rightRoot {t : Tree} : Shows g name .root .rightAbove t [t]
  | rightChild {p : Address} {n : ℕ} {b t : Tree} {us : List Tree} (hb : g.node? name p = some b)
      (hlength : us.length = n + 1)
      (hp : t.subtreeAt? p = some { b with children := us ++ b.children.drop (n + 1) }) :
      Shows g name (p.child (n + 1)) .rightAbove t us

namespace Shows

variable {name : String} {a p : Address} {t t' b w : Tree} {us : List Tree} {n : ℕ}

/-- On the left side of a node its subtree is still elementary. -/
lemma subtreeAt?_leftAbove (h : Shows g name a .leftAbove t us) (hb : g.node? name a = some b) :
    t.subtreeAt? a = some b := by
  cases h with
  | leftRoot htree =>
      rw [Grammar.node?_root, htree] at hb
      rw [Tree.subtreeAt?_root, hb]
  | leftChild hparent hlength hp =>
      rw [Grammar.node?_child, hparent, Option.bind_some] at hb
      rw [Tree.subtreeAt?_child, hp, Option.bind_some, List.getElem?_append_right hlength.le,
        hlength, Nat.sub_self, List.getElem?_drop, Nat.add_zero, hb]

/-- A tree in the place of the node is passed on the way to the right side. -/
lemma replace (h : Shows g name a .leftAbove t us) (hb : g.node? name a = some b)
    (ht' : t.replaceAt? a w = some t') : Shows g name a .rightAbove t' (us ++ [w]) := by
  cases h with
  | leftRoot htree =>
      obtain rfl : w = t' := by simpa [Tree.replaceAt?, Address.root] using ht'
      exact .rightRoot
  | @leftChild p n parent _ _ hparent hlength hp =>
      rw [Grammar.node?_child, hparent, Option.bind_some] at hb
      obtain ⟨-, ht'⟩ := Tree.replaceAt?_child hp ht'
      refine .rightChild hparent (by simp [hlength]) ((Tree.subtreeOn?_of_replaceOn? ht').trans ?_)
      obtain ⟨hn, hget⟩ := List.getElem?_eq_some_iff.1 hb
      subst hlength
      rw [List.set_append_right _ _ le_rfl, Nat.sub_self, List.drop_eq_getElem_cons hn,
        List.set_cons_zero, List.append_assoc]
      rfl

/-- A leaf is passed as it is. -/
lemma stay (h : Shows g name a .leftAbove t us) (hb : g.node? name a = some b) :
    Shows g name a .rightAbove t (us ++ [b]) :=
  h.replace hb (Tree.replaceOn?_self (h.subtreeAt?_leftAbove hb))

lemma below (h : Shows g name a .leftAbove t us) (hb : g.node? name a = some b) :
    Shows g name a .leftBelow t [] :=
  .leftBelow hb (h.subtreeAt?_leftAbove hb)

lemma down (h : Shows g name a .leftBelow t us) : Shows g name (a.child 1) .leftAbove t [] := by
  cases h with
  | @leftBelow _ b _ hb ht => exact .leftChild (n := 0) hb rfl (by rw [ht]; cases b; rfl)

lemma right (h : Shows g name (p.child n) .rightAbove t us) :
    Shows g name (p.child (n + 1)) .leftAbove t us := by
  generalize ha : p.child n = a at h
  cases h with
  | rightRoot => exact absurd ha Address.child_ne_root
  | rightChild hb hlength hp =>
      obtain ⟨rfl, rfl⟩ := Address.child_inj.1 ha
      exact .leftChild hb hlength hp

/-- Behind the last child all of them are below the parent. -/
lemma up (h : Shows g name (p.child n) .rightAbove t us) (hb : g.node? name p = some b)
    (hlast : g.node? name (p.child (n + 1)) = none) :
    Shows g name p .rightBelow t [{ b with children := us }] := by
  have hchildren := Grammar.length_children_le hb hlast
  generalize ha : p.child n = a at h
  cases h with
  | rightRoot => exact absurd ha Address.child_ne_root
  | rightChild hparent hlength hp =>
      obtain ⟨rfl, rfl⟩ := Address.child_inj.1 ha
      obtain rfl := Option.some.inj (hb.symm.trans hparent)
      refine .rightBelow (hp.trans ?_)
      rw [List.drop_eq_nil_of_le hchildren, List.append_nil]

lemma eq_of_leftBelow (h : Shows g name a .leftBelow t us) : us = [] := by
  cases h
  rfl

/-- The whole tree is what has been passed when the walk has come around the root. -/
lemma eq_of_rightRoot (h : Shows g name .root .rightAbove t us) : us = [t] := by
  generalize ha : Address.root = a at h
  cases h with
  | rightRoot => rfl
  | rightChild => exact absurd ha.symm Address.child_ne_root

lemma exists_parent (h : Shows g name (p.child n) .rightAbove t us) :
    ∃ b, g.node? name p = some b := by
  generalize ha : p.child n = a at h
  cases h with
  | rightRoot => exact absurd ha Address.child_ne_root
  | rightChild hb => exact ⟨_, (Address.child_inj.1 ha).1 ▸ hb⟩

end Shows

/-- The node that the walk is below of at a station. -/
def base (a : Address) : Corner → Address
  | .leftAbove => a.parent?.getD .root
  | .leftBelow => a
  | .rightBelow => a
  | .rightAbove => a.parent?.getD .root

@[simp] lemma base_child_left (p : Address) (n : ℕ) : base (p.child n) .leftAbove = p := by
  simp [base]

@[simp] lemma base_child_right (p : Address) (n : ℕ) : base (p.child n) .rightAbove = p := by
  simp [base]

/-- A node is the one that the walk is below of, or a child. -/
lemma eq_base_or_child (a : Address) (c : Corner) : a = base a c ∨ ∃ n, a = (base a c).child n := by
  rcases Address.eq_root_or_child a with rfl | ⟨p, n, rfl⟩
  · cases c <;> exact Or.inl rfl
  · cases c with
    | leftAbove => exact Or.inr ⟨n, by rw [base_child_left]⟩
    | rightAbove => exact Or.inr ⟨n, by rw [base_child_right]⟩
    | leftBelow => exact Or.inl rfl
    | rightBelow => exact Or.inl rfl

/-! ### All trees -/

/-- What passing parts on preserves (`Q`), together with what is preserved when the walk goes below
a node and when a part of a tree is replaced by a derived one (`R`). -/
structure IsPreserved (g : Grammar) (tokens : List String) (Q : Visited → Prop)
    (R : String → Address → Tree → Prop) : Prop where
  derived : ∀ p, Q p → IsDerived g p
  pass : ∀ ps q, Pass g tokens ps q → (∀ p ∈ ps, Q p) → Q q
  elementary : ∀ name a t, g.tree? name = some t → R name a t
  descend : ∀ name a i gap j t us, Shows g name a .leftAbove t us →
    Q (visitAt name a .leftAbove i gap j, us) → R name (base a .leftAbove) t → R name a t
  replace : ∀ name p a b x z t t', g.node? name a = some b → (a = p ∨ ∃ n, a = p.child n) →
    R name p t → t.subtreeAt? a = some x → (x = b ∨ g.Derives g.MayStay b x) →
      g.Derives g.MayStay b z → t.replaceAt? a z = some t' → R name p t'

/-- Whether a tree has the one property, and the parts of it that the walk has passed the other. -/
def Carries (g : Grammar) (Q : Visited → Prop) (R : String → Address → Tree → Prop)
    (v : NodeVisit) (t : Tree) : Prop :=
  ∃ c us, v.corner = c.text ∧ Shows g v.tree v.node c t us ∧ Q (v, us) ∧ R v.tree (base v.node c) t

section Carries

variable {Q : Visited → Prop} {R : String → Address → Tree → Prop} {v : NodeVisit} {c : Corner}
  {t : Tree} {name : String}

lemma Carries.shows (h : Carries g Q R v t) (hcorner : v.corner = c.text) :
    ∃ us, Shows g v.tree v.node c t us ∧ Q (v, us) ∧ R v.tree (base v.node c) t := by
  obtain ⟨c', us, hc, hshows, hQ⟩ := h
  obtain rfl := Corner.text_injective (hcorner.symm.trans hc)
  exact ⟨us, hshows, hQ⟩

/-- A walk begins above the root of an elementary tree. -/
lemma IsPreserved.carries_root (h : IsPreserved g tokens Q R) {j : ℕ}
    (htree : g.tree? name = some t) (hj : j ≤ tokens.length) :
    Carries g Q R (visitAt name .root .leftAbove j .absent j) t :=
  ⟨.leftAbove, [], rfl, .leftRoot htree,
    h.pass _ _ (.start ((g.node?_root name).trans htree) (Or.inl ⟨rfl, rfl⟩) hj) (by simp),
    h.elementary _ _ _ htree⟩

/-- A step preserves the properties of all trees that items carry. -/
theorem carries_of_step (hg : g.IsWellFormed) (hfeet : g.HasLeafFeet)
    (h : IsPreserved g tokens Q R) {ps : List Visited} {q : Visited} (hstep : Step g tokens ps q)
    (hps : ∀ p ∈ ps, ∀ t ∈ p.2, Carries g Q R p.1 t)
    (hle : ∀ p ∈ ps, p.1.start ≤ p.1.stop ∧ p.1.stop ≤ tokens.length) :
    ∀ t ∈ q.2, Carries g Q R q.1 t := by
  have hfirst : ∀ {p rest t}, ps = p :: rest → t ∈ p.2 → Carries g Q R p.1 t := by
    rintro p rest t rfl ht
    exact hps p List.mem_cons_self t ht
  have hsecond : ∀ {p p' rest t}, ps = p :: p' :: rest → t ∈ p'.2 → Carries g Q R p'.1 t := by
    rintro p p' rest t rfl ht
    exact hps p' (List.mem_cons_of_mem _ List.mem_cons_self) t ht
  have hplace : ∀ {p rest}, ps = p :: rest → p.1.start ≤ p.1.stop ∧ p.1.stop ≤ tokens.length := by
    rintro p rest rfl
    exact hle p List.mem_cons_self
  have hnone : ∀ {q}, Pass g tokens [] q → Q q := fun hpass => h.pass _ _ hpass (by simp)
  have hone : ∀ {p q}, Pass g tokens [p] q → Q p → Q q := fun hpass hp =>
    h.pass _ _ hpass (by simpa using hp)
  have htwo : ∀ {p p' q}, Pass g tokens [p, p'] q → Q p → Q p' → Q q := fun hpass hp hp' =>
    h.pass _ _ hpass (by simp [hp, hp'])
  cases hstep with
  | scanToken hb hleaf hterminal htoken =>
      intro t ht
      obtain ⟨us, hshows, hus, hwhole⟩ := (hfirst rfl ht).shows (c := .leftAbove) rfl
      exact ⟨.rightAbove, _, rfl, hshows.stay hb,
        hone (.scanToken hb hleaf hterminal htoken) hus, hwhole⟩
  | scanEmpty hb hepsilon =>
      intro t ht
      obtain ⟨us, hshows, hus, hwhole⟩ := (hfirst rfl ht).shows (c := .leftAbove) rfl
      exact ⟨.rightAbove, _, rfl, hshows.stay hb, hone (.scanEmpty hb hepsilon) hus, hwhole⟩
  | beginAuxiliary hmem hadjoin =>
      intro t ht
      obtain rfl := List.mem_singleton.1 ht
      exact h.carries_root (hg.tree?_of_auxiliary hmem).2 (hplace rfl).2
  | goBelow hb hlabel hsite =>
      intro t ht
      obtain ⟨us, hshows, hus, hwhole⟩ := (hfirst rfl ht).shows (c := .leftAbove) rfl
      exact ⟨.leftBelow, _, rfl, hshows.below hb, hnone (.start hb (Or.inr rfl) (hplace rfl).2),
        h.descend _ _ _ _ _ _ _ hshows hus hwhole⟩
  | beginSite hfoot hadjoin htree =>
      intro t ht
      obtain rfl := List.mem_singleton.1 ht
      obtain ⟨_, b, -, hb, -⟩ := Grammar.isAdjoinable_iff.1 hadjoin
      obtain ⟨tree, htree', hnode⟩ := Grammar.node?_eq_some_iff.1 hb
      obtain rfl := Option.some.inj (htree.symm.trans htree')
      exact ⟨.leftBelow, _, rfl, .leftBelow hb hnode,
        hnone (.start hb (Or.inr rfl) (hplace rfl).2), h.elementary _ _ _ htree⟩
  | beginInitial hb hsite hmem hlabel =>
      intro t ht
      obtain rfl := List.mem_singleton.1 ht
      exact h.carries_root (hg.tree?_of_initial hmem).2 (hplace rfl).2
  | fillFoot hfoot hadjoin =>
      intro t ht
      obtain ⟨us, hshows, hus, hwhole⟩ := (hsecond rfl ht).shows (c := .leftBelow) rfl
      obtain ⟨b, hb, hbfoot⟩ := hg.foot?_eq_some_iff.1 hfoot
      cases hshows with
      | leftBelow hb' hsubtree =>
          obtain rfl := Option.some.inj (hb.symm.trans hb')
          exact ⟨.rightBelow, _, rfl, .rightBelow hsubtree,
            hone (.fillFoot hb hbfoot (hplace rfl).1 (hplace rfl).2) hus, hwhole⟩
  | closeNode hb hlabel hjoin =>
      intro t ht
      obtain ⟨u, hu, w, hw, ht⟩ := Forest.mem_pair.1 ht
      obtain ⟨x, hx, ht⟩ := Option.bind_eq_some_iff.1 ht
      obtain ⟨us, hshows, hus, hwhole⟩ := (hfirst rfl hu).shows (c := .leftAbove) rfl
      obtain ⟨xs, hshows', hxs, -⟩ := (hsecond rfl hw).shows (c := .rightBelow) rfl
      cases hshows' with
      | rightBelow hx' =>
          obtain rfl := Option.some.inj (hx.symm.trans hx')
          have hderives := (h.derived _ hxs).derives_below rfl hb
          exact ⟨.rightAbove, _, rfl, hshows.replace hb ht,
            htwo (.closeNode hb hlabel hjoin) hus hxs,
            h.replace _ _ _ _ _ _ _ _ hb (eq_base_or_child _ _) hwhole
              (hshows.subtreeAt?_leftAbove hb) (Or.inl rfl) hderives ht⟩
  | wrap hadjoin =>
      intro t ht
      obtain ⟨w, hw, u, hu, ht⟩ := Forest.mem_pair.1 ht
      obtain ⟨us, hshows, hus, -⟩ := (hfirst rfl hu).shows (c := .rightAbove) rfl
      obtain ⟨xs, hshows', hxs, hwhole⟩ := (hsecond rfl hw).shows (c := .rightBelow) rfl
      obtain rfl := hshows.eq_of_rightRoot
      cases hshows' with
      | rightBelow hx =>
          obtain ⟨f, z, hf, hz, ht⟩ := Tree.adjoinAt?_eq_some hx ht
          obtain rfl := eq_atFoot_of_wrap hg hfeet hadjoin (h.derived _ hus) (h.derived _ hxs) hf hz
          have hwrapped := htwo (.wrap hadjoin) hus hxs
          obtain ⟨_, b, -, hb, -⟩ := Grammar.isAdjoinable_iff.1 hadjoin
          exact ⟨.rightBelow, _, rfl, .rightBelow (Tree.subtreeOn?_of_replaceOn? ht), hwrapped,
            h.replace _ _ _ _ _ _ _ _ hb (Or.inl rfl) hwhole hx
              (Or.inr ((h.derived _ hxs).derives_below rfl hb))
              ((h.derived _ hwrapped).derives_below rfl hb) ht⟩
  | goDown hchild =>
      intro t ht
      obtain ⟨b, hb⟩ := Option.isSome_iff_exists.1 hchild
      obtain ⟨us, hshows, hus, hwhole⟩ := (hfirst rfl ht).shows (c := .leftBelow) rfl
      obtain rfl := hshows.eq_of_leftBelow
      exact ⟨.leftAbove, _, rfl, hshows.down, hone (.goDown hb) hus, by simpa [base] using hwhole⟩
  | goRight hsibling =>
      intro t ht
      obtain ⟨b, hb⟩ := Option.isSome_iff_exists.1 hsibling
      obtain ⟨us, hshows, hus, hwhole⟩ := (hfirst rfl ht).shows (c := .rightAbove) rfl
      exact ⟨.leftAbove, _, rfl, hshows.right, hone (.goRight hb) hus, by simpa using hwhole⟩
  | goUp hlast =>
      intro t ht
      obtain ⟨us, hshows, hus, hwhole⟩ := (hfirst rfl ht).shows (c := .rightAbove) rfl
      obtain ⟨b, hb⟩ := hshows.exists_parent
      exact ⟨.rightBelow, _, rfl, hshows.up hb hlast, hone (.goUp hb hlast) hus,
        by simpa [base] using hwhole⟩
  | fillNode htarget hb hsite hmem hlabel =>
      intro t ht
      obtain ⟨u, hu, ht⟩ := List.mem_filterMap.1 ht
      obtain ⟨us, hshows, hus, -⟩ := (hfirst rfl hu).shows (c := .rightAbove) rfl
      obtain rfl := hshows.eq_of_rightRoot
      have hnode := Grammar.node?_eq_some_iff.2 ⟨_, htarget, hb⟩
      have hfilled := hone (.fillNode hnode hsite hmem hlabel) hus
      have ht := (Tree.substituteAt?_eq_some_iff.1 ht).2
      exact ⟨.rightBelow, _, rfl, .rightBelow (Tree.subtreeOn?_of_replaceOn? ht), hfilled,
        h.replace _ _ _ _ _ _ _ _ hnode (Or.inl rfl) (h.elementary _ _ _ htarget) hb (Or.inl rfl)
          ((h.derived _ hfilled).derives_below rfl hnode) ht⟩

end Carries

/-! ### Items -/

/-- Whether an item is about a node and places of the input. -/
structure IsWithin (g : Grammar) (tokens : List String) (v : NodeVisit) : Prop where
  corner : ∃ c : Corner, v.corner = c.text
  node : ∃ t, g.node? v.tree v.node = some t
  le : v.start ≤ v.stop
  stop_le : v.stop ≤ tokens.length
  gap_start : ∀ k, v.gap.start = some k → k ≤ tokens.length
  gap_stop : ∀ k, v.gap.stop = some k → k ≤ tokens.length

/-- A walk begins at a place of the input. -/
lemma isWithin_begin {name : String} {a : Address} {c : Corner} {j : ℕ} {t : Tree}
    (ht : g.node? name a = some t) (hj : j ≤ tokens.length) :
    IsWithin g tokens (visitAt name a c j .absent j) :=
  ⟨⟨c, rfl⟩, ⟨t, ht⟩, le_rfl, hj, nofun, nofun⟩

/-- A step leads to items about nodes and places of the input. -/
lemma isWithin_of_step (hg : g.IsWellFormed) {ps : List Visited} {q : Visited}
    (hstep : Step g tokens ps q) (hps : ∀ p ∈ ps, IsWithin g tokens p.1) :
    IsWithin g tokens q.1 := by
  have hfirst : ∀ {p rest}, ps = p :: rest → IsWithin g tokens p.1 := by
    rintro p rest rfl
    exact hps p List.mem_cons_self
  have hsecond : ∀ {p p' rest}, ps = p :: p' :: rest → IsWithin g tokens p'.1 := by
    rintro p p' rest rfl
    exact hps p' (List.mem_cons_of_mem _ List.mem_cons_self)
  cases hstep with
  | scanToken ht hleaf hterminal htoken =>
      have h := hfirst rfl
      exact ⟨⟨.rightAbove, rfl⟩, ⟨_, ht⟩, h.le.trans (Nat.le_succ _),
        (List.getElem?_eq_some_iff.1 htoken).1, h.gap_start, h.gap_stop⟩
  | scanEmpty ht hepsilon =>
      have h := hfirst rfl
      exact ⟨⟨.rightAbove, rfl⟩, ⟨_, ht⟩, h.le, h.stop_le, h.gap_start, h.gap_stop⟩
  | beginAuxiliary hmem hadjoin =>
      exact isWithin_begin ((g.node?_root _).trans (hg.tree?_of_auxiliary hmem).2)
        (hfirst rfl).stop_le
  | goBelow ht hlabel hsite => exact isWithin_begin ht (hfirst rfl).stop_le
  | beginSite hfoot hadjoin htree =>
      obtain ⟨_, _, -, ht, -⟩ := Grammar.isAdjoinable_iff.1 hadjoin
      exact isWithin_begin ht (hfirst rfl).stop_le
  | beginInitial ht hsite hmem hlabel =>
      exact isWithin_begin ((g.node?_root _).trans (hg.tree?_of_initial hmem).2)
        (hfirst rfl).stop_le
  | fillFoot hfoot hadjoin =>
      have h := hfirst rfl
      refine ⟨⟨.rightBelow, rfl⟩, (hsecond rfl).node, h.le, h.stop_le, ?_, ?_⟩
      · rintro _ ⟨⟩
        exact h.le.trans h.stop_le
      · rintro _ ⟨⟩
        exact h.stop_le
  | closeNode ht hlabel hjoin =>
      have h := hfirst rfl
      have h' := hsecond rfl
      have hle := h.le.trans h'.le
      rcases Gap.join?_eq_some.1 hjoin with ⟨rfl, rfl⟩ | ⟨rfl, rfl⟩
      · exact ⟨⟨.rightAbove, rfl⟩, ⟨_, ht⟩, hle, h'.stop_le, h'.gap_start, h'.gap_stop⟩
      · exact ⟨⟨.rightAbove, rfl⟩, ⟨_, ht⟩, hle, h'.stop_le, h.gap_start, h.gap_stop⟩
  | wrap hadjoin =>
      have h := hfirst rfl
      have h' := hsecond rfl
      exact ⟨⟨.rightBelow, rfl⟩, h'.node, h.le, h.stop_le, h'.gap_start, h'.gap_stop⟩
  | goDown hchild =>
      have h := hfirst rfl
      exact ⟨⟨.leftAbove, rfl⟩, Option.isSome_iff_exists.1 hchild, h.le, h.stop_le, h.gap_start,
        h.gap_stop⟩
  | goRight hsibling =>
      have h := hfirst rfl
      exact ⟨⟨.leftAbove, rfl⟩, Option.isSome_iff_exists.1 hsibling, h.le, h.stop_le, h.gap_start,
        h.gap_stop⟩
  | goUp hlast =>
      have h := hfirst rfl
      obtain ⟨c, hc⟩ := h.node
      obtain ⟨b, hb, -⟩ := Grammar.exists_parent_of_last_child hc hlast
      exact ⟨⟨.rightBelow, rfl⟩, ⟨b, hb⟩, h.le, h.stop_le, h.gap_start, h.gap_stop⟩
  | fillNode htarget ht hsite hmem hlabel =>
      have h := hfirst rfl
      exact ⟨⟨.rightBelow, rfl⟩, ⟨_, Grammar.node?_eq_some_iff.2 ⟨_, htarget, ht⟩⟩, h.le, h.stop_le,
        nofun, nofun⟩

/-- Whether an item is about a node and places of the input, and all of its trees and their passed
parts have the properties. -/
def IsCarrier {W : Type} (g : Grammar) (tokens : List String) (Q : Visited → Prop)
    (R : String → Address → Tree → Prop) (x : Item W) : Prop :=
  ∃ v : NodeVisit, x.form = v.form ∧ IsWithin g tokens v ∧ ∀ t ∈ x.trees, Carries g Q R v t

section Items

variable {W : Type} {Q : Visited → Prop} {R : String → Address → Tree → Prop} {x : Item W}
  {v : NodeVisit}

lemma IsCarrier.isWithin (h : IsCarrier g tokens Q R x) (hx : x.form = v.form) :
    IsWithin g tokens v := by
  obtain ⟨w, hform, hwithin, -⟩ := h
  exact NodeVisit.form_injective (hform.symm.trans hx) ▸ hwithin

lemma IsCarrier.carries (h : IsCarrier g tokens Q R x) (hx : x.form = v.form) :
    ∀ t ∈ x.trees, Carries g Q R v t := by
  obtain ⟨w, hform, -, hcarries⟩ := h
  exact NodeVisit.form_injective (hform.symm.trans hx) ▸ hcarries

variable [Weight W] {schema : Schema W}

/-- Axioms have these properties, and rules and the merging of trees preserve them. -/
theorem preserves_isCarrier (hg : g.IsWellFormed) (hfeet : g.HasLeafFeet)
    (hschema : Schema.treeEarley g tokens = .ok schema) (h : IsPreserved g tokens Q R) :
    schema.Preserves (IsCarrier g tokens Q R) where
  of_axiom a ha x hx := by
    obtain ⟨name, alpha, hmem, -, rfl⟩ := (mem_axioms hschema).1 ⟨a, ha, hx⟩
    have htree := (hg.tree?_of_initial hmem).2
    refine ⟨_, rfl, isWithin_begin ((g.node?_root name).trans htree) (Nat.zero_le _), ?_⟩
    intro t ht
    obtain rfl := List.mem_singleton.1 ht
    exact h.carries_root htree (Nat.zero_le _)
  of_fire rule hrule xs f hxs hf y hy := by
    obtain ⟨ps, q, hstep, ⟨hform, htrees⟩, hps⟩ := exists_step_of_fire hg hschema hrule
      (fun x hx => (hxs x hx).imp fun v hv => hv.1) hf hy
    have hpremises : ∀ p ∈ ps, IsWithin g tokens p.1 ∧ ∀ t ∈ p.2, Carries g Q R p.1 t := by
      intro p hp
      obtain ⟨x, hx, hsays, hsame⟩ := hps p hp
      exact ⟨(hxs x hx).isWithin hsays, hsame ▸ (hxs x hx).carries hsays⟩
    refine ⟨q.1, hform, isWithin_of_step hg hstep fun p hp => (hpremises p hp).1, ?_⟩
    rw [htrees]
    exact carries_of_step hg hfeet h hstep (fun p hp => (hpremises p hp).2) fun p hp =>
      ⟨(hpremises p hp).1.le, (hpremises p hp).1.stop_le⟩
  of_merge x y hx hy hxy := by
    obtain ⟨v, hform, hwithin, hcarries⟩ := hx
    exact ⟨v, hform, hwithin, fun t ht =>
      (Forest.mem_merge ht).elim (hcarries t) (hy.carries (hxy.symm.trans hform) t)⟩

/-- At the end of a run, what a step leads to from items of the chart is there, and no tree is
lost. -/
theorem exists_keeps_of_step (hg : g.IsWellFormed)
    (hschema : Schema.treeEarley g tokens = .ok schema) {limit : Option ℕ} {fuel : ℕ}
    {s : Deduction.State W} (hs : Deduction.finalState ⟨.accumulate, limit⟩ schema fuel = .ok s)
    {ps : List Visited} {q : Visited} (hstep : Step g tokens ps q) {xs : List (Item W)}
    (hxs : List.Forall₂ Says xs ps) (hmem : ∀ x ∈ xs, x ∈ s.chart.items) :
    ∃ z ∈ s.chart.items, z.form = q.1.form ∧ ∀ u ∈ q.2, Forest.excludes z.trees u = true := by
  obtain ⟨r, hr, harity, hfire⟩ := isTaken_of_step hg hstep hxs
  have hforms : xs.map Item.form = ps.map fun p => p.1.form := by
    rw [← List.forall₂_eq_eq_eq, List.forall₂_map_left_iff, List.forall₂_map_right_iff]
    exact hxs.imp fun _ _ hsays => hsays.1
  obtain ⟨ys, hperm, hkeeps⟩ := Deduction.keeps_of_finalState rfl hs
    ((mem_rules hschema).2 ⟨r, hr, rfl⟩) harity.symm hmem (hforms ▸ hstep.nodup)
  obtain ⟨f, hf, y, hy, hform, htrees⟩ := hfire ys hperm
  obtain ⟨z, hz, hzy, hexcludes⟩ := hkeeps f
    (Rule.fire?_eq_some.2 ⟨hperm.length_eq.trans harity.symm, hf⟩) y hy
  exact ⟨z, hz, hzy.trans hform, htrees ▸ hexcludes⟩

end Items

end TreeEarley

end DeductiveParsing
