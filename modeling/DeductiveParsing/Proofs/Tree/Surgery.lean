/-
What a replacement does to a tree.

* `Tree.Everywhere`: a property of all subtrees;
* `Tree.count`: the number of subtrees with a property;
* `Tree.Everywhere.replaceOn?`, `Tree.count_replaceOn?`: both after a replacement;
* `Tree.hasProperSubtree_iff`: what occurs below the root is a subtree of a child.
-/
import DeductiveParsing.Tree.Surgery
import DeductiveParsing.Proofs.Tree.Frontier

namespace DeductiveParsing.Tree

variable {t t' u v : Tree} {a : Address} {path : List ℕ} {P : Tree → Prop} {p : Tree → Bool}

/-! ### Replacements -/

@[simp] lemma replaceOn?_nil (t u : Tree) : t.replaceOn? [] u = some u := by
  rw [replaceOn?]

lemma replaceOn?_cons {n : ℕ} : t.replaceOn? (n :: path) u = some t' ↔
    ∃ k c c', n = k + 1 ∧ t.children[k]? = some c ∧ c.replaceOn? path u = some c' ∧
      t' = { t with children := t.children.set k c' } := by
  cases n with
  | zero => simp [replaceOn?]
  | succ k =>
      rw [replaceOn?]
      cases hc : t.children[k]? with
      | none => simp [hc]
      | some c =>
          simp only [Option.map_eq_some_iff]
          constructor
          · rintro ⟨c', hc', rfl⟩
            exact ⟨k, c, c', rfl, hc, hc', rfl⟩
          · rintro ⟨k', d, c', hk, hd, hc', rfl⟩
            obtain rfl : k = k' := Nat.succ.inj hk
            obtain rfl : c = d := Option.some.inj (hc.symm.trans hd)
            exact ⟨c', hc', rfl⟩

/-- A replacement below the root is one in a child, and its siblings on both sides stay. -/
lemma exists_siblings_of_replaceOn? {n : ℕ} (h : t.replaceOn? (n :: path) u = some t') :
    ∃ before c behind c', n = before.length + 1 ∧ t.children = before ++ c :: behind ∧
      c.replaceOn? path u = some c' ∧ t' = { t with children := before ++ c' :: behind } := by
  obtain ⟨k, c, c', rfl, hc, hc', rfl⟩ := replaceOn?_cons.1 h
  obtain ⟨hk, hget⟩ := List.getElem?_eq_some_iff.1 hc
  refine ⟨t.children.take k, c, t.children.drop (k + 1), c', ?_, ?_, hc', ?_⟩
  · rw [List.length_take_of_le hk.le]
  · rw [← hget, List.getElem_cons_drop, List.take_append_drop]
  · rw [List.set_eq_take_append_cons_drop, if_pos hk]

lemma subtreeOn?_child {c : Tree} {before behind : List Tree}
    (h : t.children = before ++ c :: behind) :
    t.subtreeOn? ((before.length + 1) :: path) = c.subtreeOn? path := by
  rw [subtreeOn?_succ, h, List.getElem?_append_right le_rfl, Nat.sub_self]
  rfl

/-- Every subtree can be replaced. -/
lemma exists_replaceOn? (u : Tree) (hv : t.subtreeOn? path = some v) :
    ∃ t', t.replaceOn? path u = some t' := by
  induction path generalizing t with
  | nil => exact ⟨u, replaceOn?_nil t u⟩
  | cons n path ih =>
      cases n with
      | zero => simp [subtreeOn?] at hv
      | succ k =>
          rw [subtreeOn?_succ] at hv
          obtain ⟨c, hc, hv⟩ := Option.bind_eq_some_iff.1 hv
          obtain ⟨c', hc'⟩ := ih hv
          exact ⟨_, replaceOn?_cons.2 ⟨k, c, c', rfl, hc, hc', rfl⟩⟩

/-- What takes the place of a subtree stands there afterwards. -/
lemma subtreeOn?_of_replaceOn? (h : t.replaceOn? path u = some t') :
    t'.subtreeOn? path = some u := by
  induction path generalizing t t' with
  | nil =>
      rw [replaceOn?_nil, Option.some.injEq] at h
      rw [subtreeOn?, h]
  | cons n path ih =>
      obtain ⟨k, c, c', rfl, hc, hc', rfl⟩ := replaceOn?_cons.1 h
      have hk : k < t.children.length := (List.getElem?_eq_some_iff.1 hc).1
      rw [subtreeOn?_succ]
      simpa [hk] using ih hc'

/-- The root keeps children when something with children takes the place of a subtree. -/
lemma children_ne_nil_of_replaceOn? (ht : t.children ≠ []) (hu : path = [] → u.children ≠ [])
    (h : t.replaceOn? path u = some t') : t'.children ≠ [] := by
  cases path with
  | nil =>
      rw [replaceOn?_nil, Option.some.injEq] at h
      exact h ▸ hu rfl
  | cons n path =>
      obtain ⟨k, c, c', rfl, -, -, rfl⟩ := replaceOn?_cons.1 h
      simpa using ht

/-- A subtree takes its own place. -/
lemma replaceOn?_self (h : t.subtreeOn? path = some u) : t.replaceOn? path u = some t := by
  induction path generalizing t with
  | nil =>
      rw [subtreeOn?, Option.some.injEq] at h
      rw [replaceOn?_nil, h]
  | cons n path ih =>
      cases n with
      | zero => simp [subtreeOn?] at h
      | succ k =>
          rw [subtreeOn?_succ] at h
          obtain ⟨c, hc, h⟩ := Option.bind_eq_some_iff.1 h
          obtain ⟨hk, rfl⟩ := List.getElem?_eq_some_iff.1 hc
          refine replaceOn?_cons.2 ⟨k, _, _, rfl, hc, ih h, ?_⟩
          obtain ⟨label, foot, children⟩ := t
          exact congrArg (mk label foot) (List.set_getElem_self hk).symm

/-- A replacement below a node is one within the subtree there. -/
lemma replaceOn?_append {rest : List ℕ} (hv : t.subtreeOn? path = some v) :
    t.replaceOn? (path ++ rest) u = some t' ↔
      ∃ v', v.replaceOn? rest u = some v' ∧ t.replaceOn? path v' = some t' := by
  induction path generalizing t t' with
  | nil =>
      rw [subtreeOn?, Option.some.injEq] at hv
      simp [hv]
  | cons n path ih =>
      cases n with
      | zero => simp [subtreeOn?] at hv
      | succ k =>
          rw [subtreeOn?_succ] at hv
          obtain ⟨c, hc, hv⟩ := Option.bind_eq_some_iff.1 hv
          rw [List.cons_append, replaceOn?_cons]
          constructor
          · rintro ⟨m, d, c', hm, hd, hc', rfl⟩
            obtain rfl := Nat.succ.inj hm
            obtain rfl := Option.some.inj (hc.symm.trans hd)
            obtain ⟨v', hv', hc'⟩ := (ih hv).1 hc'
            exact ⟨v', hv', replaceOn?_cons.2 ⟨_, _, c', rfl, hc, hc', rfl⟩⟩
          · rintro ⟨v', hv', h⟩
            obtain ⟨m, d, c', hm, hd, hc', rfl⟩ := replaceOn?_cons.1 h
            obtain rfl := Nat.succ.inj hm
            obtain rfl := Option.some.inj (hc.symm.trans hd)
            exact ⟨_, _, c', rfl, hc, (ih hv).2 ⟨v', hv', hc'⟩, rfl⟩

/-- A replacement of a child changes the parent only. -/
lemma replaceAt?_child {n : ℕ} (hv : t.subtreeAt? a = some v)
    (h : t.replaceAt? (a.child (n + 1)) u = some t') :
    n < v.children.length ∧
      t.replaceAt? a { v with children := v.children.set n u } = some t' := by
  obtain ⟨v', hv', ht'⟩ := (replaceOn?_append hv).1 h
  obtain ⟨_, c, c', hn, hc, hc', rfl⟩ := replaceOn?_cons.1 hv'
  obtain rfl := Nat.succ.inj hn
  rw [replaceOn?_nil, Option.some.injEq] at hc'
  subst hc'
  exact ⟨(List.getElem?_eq_some_iff.1 hc).1, ht'⟩

/-! ### Properties of all subtrees -/

/-- Whether all subtrees have a property. -/
def Everywhere (P : Tree → Prop) (t : Tree) : Prop := ∀ u ∈ t.nodes.map Prod.snd, P u

/-- A property of all subtrees is one of the tree and of all subtrees of the children. -/
lemma everywhere_iff : t.Everywhere P ↔ P t ∧ ∀ c ∈ t.children, c.Everywhere P := by
  simp only [Everywhere]
  rw [map_snd_nodes]
  simp only [List.mem_cons, List.mem_flatMap]
  constructor
  · exact fun h => ⟨h t (Or.inl rfl), fun c hc u hu => h u (Or.inr ⟨c, hc, hu⟩)⟩
  · rintro ⟨ht, hcs⟩ u (rfl | ⟨c, hc, hu⟩)
    · exact ht
    · exact hcs c hc u hu

/-- A property that a replacement within the children does not affect stays a property of all
subtrees. Here `R` is what the old and the new child have in common. -/
lemma Everywhere.replaceOn? {R : Tree → Tree → Prop}
    (hR : ∀ (t : Tree) cs, R t { t with children := cs })
    (hP : ∀ t n c c', t.children[n]? = some c → R c c' → P t →
      P { t with children := t.children.set n c' })
    (ht : t.Everywhere P) (hu : u.Everywhere P) (hv : t.subtreeOn? path = some v) (huv : R v u)
    (h : t.replaceOn? path u = some t') : t'.Everywhere P ∧ R t t' := by
  induction path generalizing t t' with
  | nil =>
      rw [replaceOn?_nil, Option.some.injEq] at h
      rw [subtreeOn?, Option.some.injEq] at hv
      exact h ▸ hv ▸ ⟨hu, huv⟩
  | cons n path ih =>
      obtain ⟨k, c, c', rfl, hc, hc', rfl⟩ := replaceOn?_cons.1 h
      rw [subtreeOn?_succ, hc, Option.bind_some] at hv
      obtain ⟨hroot, hcs⟩ := everywhere_iff.1 ht
      obtain ⟨hall, hcc'⟩ := ih (hcs c (List.mem_of_getElem? hc)) hv hc'
      refine ⟨everywhere_iff.2 ⟨hP t k c c' hc hcc' hroot, fun d hd => ?_⟩, hR t _⟩
      rcases List.mem_or_eq_of_mem_set hd with hd | rfl
      · exact hcs d hd
      · exact hall

/-! ### Numbers of subtrees -/

/-- The number of subtrees with a property. -/
def count (p : Tree → Bool) (t : Tree) : ℕ := (t.nodes.map Prod.snd).countP p

lemma count_eq (p : Tree → Bool) (t : Tree) :
    t.count p = (t.children.map (count p)).sum + if p t = true then 1 else 0 := by
  have hsum : ∀ cs : List Tree, (cs.flatMap fun c => c.nodes.map Prod.snd).countP p =
      (cs.map (count p)).sum := by
    intro cs
    induction cs with
    | nil => rfl
    | cons c cs ih =>
        rw [List.flatMap_cons, List.countP_append, ih, List.map_cons, List.sum_cons]
        rfl
  rw [count, map_snd_nodes, List.countP_cons, hsum]

/-- Whether a property of trees depends on the root only, and on whether that has children. -/
def IsShallow (p : Tree → Bool) : Prop :=
  ∀ (t : Tree) cs, cs.isEmpty = t.children.isEmpty → p { t with children := cs } = p t

/-- A replacement exchanges the subtrees of the old part for those of the new one. -/
lemma count_replaceOn? (hp : IsShallow p) (hv : t.subtreeOn? path = some v)
    (h : t.replaceOn? path u = some t') : t'.count p + v.count p = t.count p + u.count p := by
  induction path generalizing t t' with
  | nil =>
      rw [replaceOn?_nil, Option.some.injEq] at h
      rw [subtreeOn?, Option.some.injEq] at hv
      rw [← h, ← hv, Nat.add_comm]
  | cons n path ih =>
      obtain ⟨before, c, behind, c', rfl, hchildren, hc', rfl⟩ := exists_siblings_of_replaceOn? h
      rw [subtreeOn?_child hchildren] at hv
      have hchild := ih hv hc'
      have hempty : (before ++ c' :: behind).isEmpty = t.children.isEmpty := by
        rw [hchildren, Bool.eq_iff_iff]
        simp
      have hroot : p { t with children := before ++ c' :: behind } = p t := hp t _ hempty
      rw [count_eq p t, count_eq p { t with children := before ++ c' :: behind }, hroot, hchildren]
      simp only [List.map_append, List.map_cons, List.sum_append, List.sum_cons]
      omega

lemma count_none_frontier_eq_count (t : Tree) :
    t.frontier.count none = t.count fun u => u.foot && u.isLeaf := by
  rw [count_none_frontier, count, List.countP_eq_length_filter]

/-- A replacement exchanges the holes of the old part for those of the new one. -/
lemma count_none_replaceOn? (hv : t.subtreeOn? path = some v)
    (h : t.replaceOn? path u = some t') :
    t'.frontier.count none + v.frontier.count none =
      t.frontier.count none + u.frontier.count none := by
  simp only [count_none_frontier_eq_count]
  refine count_replaceOn? (fun t cs hcs => ?_) hv h
  simp only [isLeaf, hcs]

/-! ### Filling the foot -/

/-- Whether an inner node with a property keeps it with other children. -/
def IsInherited (P : Tree → Prop) : Prop :=
  ∀ (t : Tree) cs, t.children ≠ [] → cs ≠ [] → P t → P { t with children := cs }

/-- What holds of all subtrees of a tree and of another one, holds of all of the first with the
other one at the foot. -/
lemma Everywhere.atFoot (hP : IsInherited P) (ht : t.Everywhere P) (hv : v.Everywhere P) :
    (atFoot v t).Everywhere P := by
  induction t using ind with
  | h label foot children ih =>
      obtain ⟨hroot, hchildren⟩ := everywhere_iff.1 ht
      by_cases hleaf : children = []
      · subst hleaf
        cases foot with
        | true => rwa [atFoot_of_foot v rfl rfl]
        | false => rwa [atFoot_of_leaf v rfl rfl]
      · rw [atFoot_of_children v (t := ⟨label, foot, children⟩) hleaf]
        refine everywhere_iff.2 ⟨hP ⟨label, foot, children⟩ _ hleaf ?_ hroot, fun c hc => ?_⟩
        · simpa using hleaf
        obtain ⟨d, hd, rfl⟩ := List.mem_map.1 hc
        exact ih d hd (hchildren d hd)

/-- What holds of all leaves, and of all subtrees with another tree at the foot, holds of all
subtrees. -/
lemma everywhere_of_atFoot (hP : IsInherited P) (hleaf : ∀ u, u.children = [] → P u)
    (h : (atFoot v t).Everywhere P) : t.Everywhere P := by
  induction t using ind with
  | h label foot children ih =>
      by_cases hchildren : children = []
      · subst hchildren
        exact everywhere_iff.2 ⟨hleaf _ rfl, fun c hc => absurd hc List.not_mem_nil⟩
      · rw [atFoot_of_children v (t := ⟨label, foot, children⟩) hchildren] at h
        obtain ⟨hroot, hfilled⟩ := everywhere_iff.1 h
        refine everywhere_iff.2 ⟨hP _ children ?_ hchildren hroot, fun c hc => ?_⟩
        · simpa using hchildren
        · exact ih c hc (hfilled _ (List.mem_map_of_mem hc))

/-- In a hole the other tree is a subtree. -/
lemma everywhere_of_atFoot_of_hole (hhole : none ∈ t.frontier)
    (h : (atFoot v t).Everywhere P) : v.Everywhere P := by
  induction t using ind with
  | h label foot children ih =>
      by_cases hchildren : children = []
      · subst hchildren
        cases foot with
        | true => rwa [atFoot_of_foot v rfl rfl] at h
        | false => simp [frontier] at hhole
      · rw [frontier_of_children (t := ⟨label, foot, children⟩) hchildren] at hhole
        rw [atFoot_of_children v (t := ⟨label, foot, children⟩) hchildren] at h
        obtain ⟨c, hc, hhole⟩ := List.mem_flatMap.1 hhole
        exact ih c hc hhole ((everywhere_iff.1 h).2 _ (List.mem_map_of_mem hc))

/-- Whether all feet are leaves. -/
def HasLeafFeet (t : Tree) : Prop := t.Everywhere fun u => u.foot = true → u.children = []

lemma isInherited_leafFoot : IsInherited fun u => u.foot = true → u.children = [] :=
  fun _ _ hinner _ h hfoot => absurd (h hfoot) hinner

/-- Without holes there is no place for a tree at the foot. -/
lemma atFoot_eq_self (h : none ∉ t.frontier) : atFoot v t = t := by
  induction t using ind with
  | h label foot children ih =>
      by_cases hleaf : children = []
      · subst hleaf
        cases foot with
        | true => simp [frontier] at h
        | false => exact atFoot_of_leaf v rfl rfl
      · rw [frontier_of_children (t := ⟨label, foot, children⟩) hleaf] at h
        rw [atFoot_of_children v (t := ⟨label, foot, children⟩) hleaf]
        refine congrArg (mk label foot) ?_
        refine (List.map_congr_left fun c hc => ih c hc fun hmem => h ?_).trans (List.map_id _)
        exact List.mem_flatMap.2 ⟨c, hc, hmem⟩

/-- A tree in the place of the only foot is the tree at the foot. -/
lemma eq_atFoot_of_replaceOn? (hone : t.frontier.count none = 1) (hu : t.subtreeOn? path = some u)
    (hleaf : u.children = []) (hfoot : u.foot = true) (h : t.replaceOn? path v = some t') :
    t' = atFoot v t := by
  induction path generalizing t t' with
  | nil =>
      rw [subtreeOn?, Option.some.injEq] at hu
      rw [replaceOn?_nil, Option.some.injEq] at h
      rw [hu, atFoot_of_foot v hleaf hfoot, h]
  | cons n path ih =>
      obtain ⟨before, c, behind, c', rfl, hsplit, hc', rfl⟩ := exists_siblings_of_replaceOn? h
      rw [subtreeOn?_child hsplit] at hu
      have hchildren : t.children ≠ [] := by simp [hsplit]
      -- the only hole is that of the child that the path leads through
      have hhole : 0 < c.frontier.count none := by
        refine List.count_pos_iff.2 ((frontier_sublist_of_subtreeOn? hu).subset ?_)
        simp [frontier_of_foot hleaf hfoot]
      rw [frontier_of_children hchildren, hsplit, List.flatMap_append, List.flatMap_cons,
        List.count_append, List.count_append] at hone
      have hself : ∀ ds : List Tree, (ds.flatMap frontier).count none = 0 →
          ds.map (atFoot v) = ds := by
        intro ds hds
        refine (List.map_congr_left fun d hd => atFoot_eq_self fun hmem => ?_).trans
          (List.map_id ds)
        exact List.count_eq_zero.1 hds (List.mem_flatMap.2 ⟨d, hd, hmem⟩)
      rw [atFoot_of_children v hchildren, ih (by omega) hu hc', hsplit, List.map_append,
        List.map_cons, hself before (by omega), hself behind (by omega)]

/-! ### Substitution and adjunction -/

lemma substituteAt?_eq_some_iff : t.substituteAt? a u = some t' ↔
    (∃ v, t.subtreeAt? a = some v ∧ v.isLeaf = true ∧ v.label = u.label) ∧
      t.replaceAt? a u = some t' := by
  simp only [substituteAt?, Option.bind_eq_bind, Option.bind_eq_some_iff,
    Option.ite_none_right_eq_some, Bool.and_eq_true, beq_iff_eq]
  constructor
  · rintro ⟨v, hv, hleaf, h⟩
    exact ⟨⟨v, hv, hleaf⟩, h⟩
  · rintro ⟨⟨v, hv, hleaf⟩, h⟩
    exact ⟨v, hv, hleaf, h⟩

/-- An adjunction takes a node with the right label and a foot. It puts the subtree in the place of
the foot, and the result in its place. -/
lemma adjoinAt?_eq_some_iff : t.adjoinAt? a u = some t' ↔
    ∃ v foot wrapped, t.subtreeAt? a = some v ∧ u.label = v.label ∧ u.footAddress? = some foot ∧
      u.replaceAt? foot { v with foot := false } = some wrapped ∧
        t.replaceAt? a wrapped = some t' := by
  simp only [adjoinAt?, Option.bind_eq_bind, Option.bind_eq_some_iff,
    Option.ite_none_right_eq_some, beq_iff_eq]
  constructor
  · rintro ⟨v, hv, foot, hfoot, hlabel, wrapped, hwrapped, h⟩
    exact ⟨v, foot, wrapped, hv, hlabel, hfoot, hwrapped, h⟩
  · rintro ⟨v, foot, wrapped, hv, hlabel, hfoot, hwrapped, h⟩
    exact ⟨v, hv, foot, hfoot, hlabel, wrapped, hwrapped, h⟩

lemma adjoinAt?_eq_some (hv : t.subtreeAt? a = some v) (h : t.adjoinAt? a u = some t') :
    ∃ foot wrapped, u.footAddress? = some foot ∧
      u.replaceAt? foot { v with foot := false } = some wrapped ∧
        t.replaceAt? a wrapped = some t' := by
  obtain ⟨w, foot, wrapped, hw, -, hfoot, hwrapped, h⟩ := adjoinAt?_eq_some_iff.1 h
  obtain rfl := Option.some.inj (hv.symm.trans hw)
  exact ⟨foot, wrapped, hfoot, hwrapped, h⟩

/-! ### Substitution at the first open leaf -/

/-- A tree that is substituted takes the place of an open leaf with its root's label. -/
lemma substituteLeftmost?_eq_some (h : t.substituteLeftmost? u = some t') :
    ∃ a v, t.subtreeAt? a = some v ∧ v.isOpen = true ∧ v.label = u.label ∧
      t.replaceAt? a u = some t' := by
  rw [substituteLeftmost?, Option.bind_eq_bind, Option.bind_eq_some_iff] at h
  obtain ⟨a, ha, h⟩ := h
  obtain ⟨v, hv, hp⟩ := exists_of_find? ha
  rw [Bool.and_eq_true, beq_iff_eq] at hp
  exact ⟨a, v, hv, hp.1, hp.2, h⟩

/-- A tree can be substituted if there is an open leaf with its root's label. -/
lemma exists_substituteLeftmost? (h : 0 < t.count fun v => v.isOpen && v.label == u.label) :
    ∃ t', t.substituteLeftmost? u = some t' := by
  obtain ⟨v, hv, hp⟩ := List.countP_pos_iff.1 h
  obtain ⟨⟨b, v⟩, hnode, rfl⟩ := List.mem_map.1 hv
  cases hfind : t.find? fun v => v.isOpen && v.label == u.label with
  | none =>
      rw [find?_eq_none_iff.1 hfind b v (mem_nodes.1 hnode)] at hp
      cases hp
  | some a =>
      obtain ⟨w, hw, -⟩ := exists_of_find? hfind
      obtain ⟨t', ht'⟩ := exists_replaceOn? u hw
      exact ⟨t', by rw [substituteLeftmost?, hfind]; exact ht'⟩

/-- The nodes of a tree that stands somewhere have their paths behind that address. -/
lemma nodesFrom_eq_map (a : Address) (t : Tree) :
    nodesFrom a t = t.nodes.map fun node => (⟨a.path ++ node.1.path⟩, node.2) := by
  induction t using ind generalizing a with
  | h label foot children ih =>
      have hamong : ∀ (cs : List Tree) (n : ℕ), (∀ c ∈ cs, c ∈ children) →
          nodesAmong a n cs =
            (nodesAmong .root n cs).map fun node => (⟨a.path ++ node.1.path⟩, node.2) := by
        intro cs
        induction cs with
        | nil => exact fun _ _ => rfl
        | cons c cs ihcs =>
            intro n hcs
            have hc := hcs c List.mem_cons_self
            rw [nodesAmong, nodesAmong, List.map_append,
              ihcs _ fun d hd => hcs d (List.mem_cons_of_mem _ hd), ih c hc, ih c hc, List.map_map]
            simp [Address.child, Address.root, Function.comp_def]
      rw [nodes, nodesFrom, nodesFrom, List.map_cons, hamong children 1 fun c hc => hc]
      simp [Address.root]

/-! ### Occurrences below the root -/

/-- What occurs below the root is a subtree of a child. -/
lemma hasProperSubtree_iff :
    t.hasProperSubtree u = true ↔ ∃ c ∈ t.children, u ∈ c.nodes.map Prod.snd := by
  induction t using ind with
  | h label foot children ih =>
      have hamong : ∀ cs : List Tree, (∀ c ∈ cs, c ∈ children) →
          (occursAmong cs u = true ↔ ∃ c ∈ cs, u ∈ c.nodes.map Prod.snd) := by
        intro cs
        induction cs with
        | nil => simp [occursAmong]
        | cons c cs ihcs =>
            intro hcs
            have hc := ih c (hcs c List.mem_cons_self)
            rw [occursAmong, Bool.or_eq_true, Bool.or_eq_true, beq_iff_eq, hc,
              ihcs fun d hd => hcs d (List.mem_cons_of_mem _ hd), List.exists_mem_cons_iff,
              map_snd_nodes c, List.mem_cons, List.mem_flatMap, eq_comm]
      rw [hasProperSubtree, hamong children fun c hc => hc]

lemma hasProperSubtree_eq_false_iff :
    t.hasProperSubtree u = false ↔ ∀ c ∈ t.children, u ∉ c.nodes.map Prod.snd := by
  rw [← Bool.not_eq_true, hasProperSubtree_iff]
  exact not_exists.trans (forall_congr' fun c => not_and)

end DeductiveParsing.Tree
