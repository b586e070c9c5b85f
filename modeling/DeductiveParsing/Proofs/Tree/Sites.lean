/-
What operations on trees do at the site where they take place, and nowhere else.

* `liesLeft`, `leafLabelsLeftOf`, `leafLabelsRightOf`: the leaves on both sides of a path;
* `leafLabels_replaceOn?`: a replacement exchanges the leaves between these;
* `IsReplacement`: what a replacement keeps, and what it puts in the place of a subtree;
* `IsOnlyFoot`: the only foot of a tree, which is a leaf;
* `surgery_at_site`: replacement, adjunction and substitution.
-/
import DeductiveParsing.Proofs.Tree.Substitution

namespace DeductiveParsing.Tree

variable {t t' u v c : Tree} {a f : Address} {path : List ℕ} {before behind : List Tree}

/-! ### Leaves on both sides of a path -/

/-- Whether a path lies to the left of another one: where the two part, it leads to the earlier
child. -/
def liesLeft : List ℕ → List ℕ → Bool
  | n :: q, m :: p => n < m || (n == m && liesLeft q p)
  | _, _ => false

/-- The labels of the leaves with a property of their paths, from left to right. -/
def leafLabelsWhere (p : List ℕ → Bool) (t : Tree) : List String :=
  (t.nodes.filter fun node => p node.1.path && node.2.isLeaf).map fun node => node.2.label

/-- The labels of the leaves to the left of a path. -/
def leafLabelsLeftOf (t : Tree) (path : List ℕ) : List String :=
  t.leafLabelsWhere fun q => liesLeft q path

/-- The labels of the leaves to the right of a path. -/
def leafLabelsRightOf (t : Tree) (path : List ℕ) : List String :=
  t.leafLabelsWhere fun q => liesLeft path q

lemma leafLabelsWhere_true {p : List ℕ → Bool} (h : ∀ q, p q = true) :
    t.leafLabelsWhere p = t.leafLabels := by
  rw [leafLabels, List.filter_map, List.map_map, leafLabelsWhere]
  simp [h, Function.comp_def]

lemma leafLabelsWhere_false {p : List ℕ → Bool} (h : ∀ q, p q = false) :
    t.leafLabelsWhere p = [] := by
  simp [leafLabelsWhere, h]

/-- The leaves among the children of a node, of which the first one has place `n`. -/
lemma leafLabels_nodesAmong (p : List ℕ → Bool) (n : ℕ) (cs : List Tree) :
    (((nodesAmong .root n cs).filter fun node => p node.1.path && node.2.isLeaf).map
        fun node => node.2.label) =
      (cs.zipIdx n).flatMap fun c => c.1.leafLabelsWhere fun q => p (c.2 :: q) := by
  induction cs generalizing n with
  | nil => rfl
  | cons c cs ih =>
      rw [nodesAmong, List.filter_append, List.map_append, ih, nodesFrom_eq_map, List.filter_map,
        List.map_map, List.zipIdx_cons, List.flatMap_cons]
      rfl

/-- All leaves of children count, if all paths through these do. -/
lemma flatMap_leafLabelsWhere_true {p : List ℕ → Bool} {n : ℕ} {cs : List Tree}
    (h : ∀ i q, n ≤ i → i < n + cs.length → p (i :: q) = true) :
    ((cs.zipIdx n).flatMap fun c => c.1.leafLabelsWhere fun q => p (c.2 :: q)) =
      cs.flatMap leafLabels := by
  conv_rhs => rw [← List.zipIdx_map_fst n cs, List.flatMap_map]
  refine List.flatMap_congr fun c hc => leafLabelsWhere_true fun q => ?_
  obtain ⟨hle, hlt, -⟩ := List.mem_zipIdx hc
  exact h c.2 q hle hlt

/-- No leaves of children count, if no paths through these do. -/
lemma flatMap_leafLabelsWhere_false {p : List ℕ → Bool} {n : ℕ} {cs : List Tree}
    (h : ∀ i q, n ≤ i → i < n + cs.length → p (i :: q) = false) :
    ((cs.zipIdx n).flatMap fun c => c.1.leafLabelsWhere fun q => p (c.2 :: q)) = [] := by
  refine List.flatMap_eq_nil_iff.2 fun c hc => leafLabelsWhere_false fun q => ?_
  obtain ⟨hle, hlt, -⟩ := List.mem_zipIdx hc
  exact h c.2 q hle hlt

section Sides

variable (hchildren : t.children = before ++ c :: behind)
include hchildren

/-- The leaves of an inner node are those of its children, also when only some of them count. -/
lemma leafLabelsWhere_of_children (p : List ℕ → Bool) :
    t.leafLabelsWhere p =
      ((before.zipIdx 1).flatMap fun d => d.1.leafLabelsWhere fun q => p (d.2 :: q)) ++
        (c.leafLabelsWhere fun q => p ((before.length + 1) :: q)) ++
          (behind.zipIdx (before.length + 2)).flatMap
            fun d => d.1.leafLabelsWhere fun q => p (d.2 :: q) := by
  obtain ⟨label, foot, children⟩ := t
  obtain rfl : children = before ++ c :: behind := hchildren
  rw [leafLabelsWhere, nodes, nodesFrom, List.filter_cons_of_neg (by simp [isLeaf]),
    leafLabels_nodesAmong, List.zipIdx_append, List.zipIdx_cons, List.flatMap_append,
    List.flatMap_cons, Nat.add_comm 1, List.append_assoc]

/-- To the left of a path are the leaves of the earlier children, and those in the child that the
path leads to. -/
lemma leafLabelsLeftOf_cons :
    t.leafLabelsLeftOf ((before.length + 1) :: path) =
      before.flatMap leafLabels ++ c.leafLabelsLeftOf path := by
  rw [leafLabelsLeftOf, leafLabelsWhere_of_children hchildren,
    flatMap_leafLabelsWhere_true (p := fun q => liesLeft q _) fun i q _ hi => ?_,
    flatMap_leafLabelsWhere_false (p := fun q => liesLeft q _) fun i q hi _ => ?_, List.append_nil]
  · simp [leafLabelsLeftOf, liesLeft]
  · simp [liesLeft]
    omega
  · simp [liesLeft]
    omega

/-- To the right of a path are the leaves in the child that the path leads to, and those of the
later children. -/
lemma leafLabelsRightOf_cons :
    t.leafLabelsRightOf ((before.length + 1) :: path) =
      c.leafLabelsRightOf path ++ behind.flatMap leafLabels := by
  rw [leafLabelsRightOf, leafLabelsWhere_of_children hchildren,
    flatMap_leafLabelsWhere_false (p := fun q => liesLeft _ q) fun i q _ hi => ?_,
    flatMap_leafLabelsWhere_true (p := fun q => liesLeft _ q) fun i q hi _ => ?_, List.nil_append]
  · simp [leafLabelsRightOf, liesLeft]
  · simp [liesLeft]
    omega
  · simp [liesLeft]
    omega

end Sides

@[simp] lemma leafLabelsLeftOf_nil (t : Tree) : t.leafLabelsLeftOf [] = [] :=
  leafLabelsWhere_false fun q => by cases q <;> rfl

@[simp] lemma leafLabelsRightOf_nil (t : Tree) : t.leafLabelsRightOf [] = [] :=
  leafLabelsWhere_false fun _ => rfl

/-- The leaves after a replacement are those on both sides and those of the new part. -/
theorem leafLabels_replaceOn? (h : t.replaceOn? path u = some t') :
    t'.leafLabels = t.leafLabelsLeftOf path ++ u.leafLabels ++ t.leafLabelsRightOf path := by
  induction path generalizing t t' with
  | nil =>
      rw [replaceOn?_nil, Option.some.injEq] at h
      simp [h]
  | cons n path ih =>
      obtain ⟨before, c, behind, c', rfl, hchildren, hc', rfl⟩ := exists_siblings_of_replaceOn? h
      rw [leafLabelsLeftOf_cons hchildren, leafLabelsRightOf_cons hchildren,
        leafLabels_of_children (List.append_ne_nil_of_right_ne_nil _ (List.cons_ne_nil _ _)),
        List.flatMap_append, List.flatMap_cons, ih hc']
      simp only [List.append_assoc]

/-- The leaves of a tree are those of a subtree and those on both sides of it. -/
lemma leafLabels_eq_of_subtreeOn? (h : t.subtreeOn? path = some v) :
    t.leafLabels = t.leafLabelsLeftOf path ++ v.leafLabels ++ t.leafLabelsRightOf path :=
  leafLabels_replaceOn? (replaceOn?_self h)

/-- The mark of the root does not count for the leaves. -/
lemma leafLabels_setFoot (v : Tree) (foot : Bool) :
    leafLabels { v with foot := foot } = v.leafLabels := by
  by_cases hleaf : v.children = []
  · rw [leafLabels_of_leaf hleaf, leafLabels_of_leaf (by exact hleaf)]
  · rw [leafLabels_of_children hleaf, leafLabels_of_children (by exact hleaf)]

/-! ### Replacements -/

/-- Whether `t'` is `t` with `u` in the place of the subtree at `a`: there it is `u`, beside that
place it is `t`, and the nodes above keep their labels, marks and numbers of children. -/
structure IsReplacement (t : Tree) (a : Address) (u t' : Tree) : Prop where
  within : ∀ path, t'.subtreeAt? ⟨a.path ++ path⟩ = u.subtreeAt? ⟨path⟩
  beside : ∀ b : Address, ¬b.path <+: a.path → ¬a.path <+: b.path →
    t'.subtreeAt? b = t.subtreeAt? b
  above : ∀ b : Address, b.path <+: a.path → b ≠ a → ∃ v v', t.subtreeAt? b = some v ∧
    t'.subtreeAt? b = some v' ∧ v'.label = v.label ∧ v'.foot = v.foot ∧
      v'.children.length = v.children.length

/-- Where a path leaves that of a replacement, nothing changes. -/
lemma subtreeOn?_beside {q : List ℕ} (h : t.replaceOn? path u = some t') (hq : ¬q <+: path)
    (hpath : ¬path <+: q) : t'.subtreeOn? q = t.subtreeOn? q := by
  induction path generalizing t t' q with
  | nil => exact absurd List.nil_prefix hpath
  | cons n path ih =>
      obtain ⟨k, c, c', rfl, hc, hc', rfl⟩ := replaceOn?_cons.1 h
      cases q with
      | nil => exact absurd List.nil_prefix hq
      | cons m q =>
          cases m with
          | zero => simp [subtreeOn?]
          | succ m =>
              rw [subtreeOn?_succ, subtreeOn?_succ]
              by_cases hm : k = m
              · subst hm
                have hchild := ih hc' (fun hq' => hq (List.cons_prefix_cons.2 ⟨rfl, hq'⟩))
                  (fun hpath' => hpath (List.cons_prefix_cons.2 ⟨rfl, hpath'⟩))
                have hk := (List.getElem?_eq_some_iff.1 hc).1
                rw [hc, List.getElem?_set_self hk, Option.bind_some, Option.bind_some, hchild]
              · rw [List.getElem?_set_ne hm]

/-- Above a replacement the nodes keep their labels, their marks and their numbers of children. -/
lemma exists_subtreeOn?_above {q : List ℕ} (h : t.replaceOn? path u = some t') (hq : q <+: path)
    (hne : q ≠ path) : ∃ v v', t.subtreeOn? q = some v ∧ t'.subtreeOn? q = some v' ∧
      v'.label = v.label ∧ v'.foot = v.foot ∧ v'.children.length = v.children.length := by
  induction path generalizing t t' q with
  | nil => exact absurd (List.prefix_nil.1 hq) hne
  | cons n path ih =>
      obtain ⟨k, c, c', rfl, hc, hc', rfl⟩ := replaceOn?_cons.1 h
      cases q with
      | nil => exact ⟨t, _, rfl, rfl, rfl, rfl, List.length_set⟩
      | cons m q =>
          obtain ⟨rfl, hbelow⟩ := List.cons_prefix_cons.1 hq
          have hk := (List.getElem?_eq_some_iff.1 hc).1
          obtain ⟨v, v', hv, hv', hkept⟩ := ih hc' hbelow fun heq => hne (heq ▸ rfl)
          refine ⟨v, v', ?_, ?_, hkept⟩
          · rwa [subtreeOn?_succ, hc]
          · rwa [subtreeOn?_succ, List.getElem?_set_self hk]

/-- A replacement takes place at its site and nowhere else. -/
lemma isReplacement_of_replaceAt? (h : t.replaceAt? a u = some t') : t.IsReplacement a u t' where
  within path := by
    have hsite := subtreeOn?_of_replaceOn? h
    rw [subtreeAt?, subtreeOn?_append, hsite]
    rfl
  beside _ hb ha := subtreeOn?_beside h hb ha
  above b hb hne := by
    refine exists_subtreeOn?_above h hb fun heq => hne ?_
    obtain ⟨p⟩ := a
    obtain ⟨q⟩ := b
    exact congrArg Address.mk heq

/-- Only a subtree can be replaced. -/
lemma exists_subtreeOn?_of_replaceOn? (h : t.replaceOn? path u = some t') :
    ∃ v, t.subtreeOn? path = some v := by
  induction path generalizing t t' with
  | nil => exact ⟨t, rfl⟩
  | cons n path ih =>
      obtain ⟨k, c, c', rfl, hc, hc', -⟩ := replaceOn?_cons.1 h
      rw [subtreeOn?_succ, hc]
      exact ih hc'

lemma exists_replaceAt?_iff :
    (∃ t', t.replaceAt? a u = some t') ↔ ∃ v, t.subtreeAt? a = some v :=
  ⟨fun ⟨_, h⟩ => exists_subtreeOn?_of_replaceOn? h, fun ⟨_, hv⟩ => exists_replaceOn? u hv⟩

/-! ### Feet -/

/-- Whether the node at `f` is the only foot, and a leaf. -/
structure IsOnlyFoot (t : Tree) (f : Address) : Prop where
  exists_leaf : ∃ u, t.subtreeAt? f = some u ∧ u.foot = true ∧ u.isLeaf = true
  eq : ∀ b u, t.subtreeAt? b = some u → u.foot = true → b = f

lemma exists_footAddress?_iff :
    (∃ f, t.footAddress? = some f) ↔ ∃ b u, t.subtreeAt? b = some u ∧ u.foot = true := by
  constructor
  · rintro ⟨f, hf⟩
    exact ⟨f, exists_of_find? hf⟩
  · rintro ⟨b, u, hu, hfoot⟩
    refine Option.ne_none_iff_exists'.1 fun hnone => ?_
    rw [find?_eq_none_iff.1 hnone b u hu] at hfoot
    cases hfoot

namespace IsOnlyFoot

lemma footAddress?_eq (h : IsOnlyFoot t f) : t.footAddress? = some f := by
  obtain ⟨u, hu, hfoot, -⟩ := h.exists_leaf
  obtain ⟨b, hb⟩ := exists_footAddress?_iff.2 ⟨f, u, hu, hfoot⟩
  obtain ⟨v, hv, hfoot⟩ := exists_of_find? hb
  rw [hb, h.eq b v hv hfoot]

/-- There is nothing below the foot. -/
lemma eq_of_isPrefix (h : IsOnlyFoot t f) {b : Address} (hu : t.subtreeAt? b = some u)
    (habove : f.path <+: b.path) : b = f := by
  obtain ⟨path, hpath⟩ := habove
  obtain ⟨w, hw, -, hleaf⟩ := h.exists_leaf
  rw [subtreeAt?, ← hpath, subtreeOn?_append, ← subtreeAt?, hw, Option.bind_some] at hu
  obtain ⟨q⟩ := b
  cases path with
  | nil =>
      obtain ⟨p⟩ := f
      obtain rfl : p = q := by simpa using hpath
      rfl
  | cons n path =>
      cases n with
      | zero => simp [subtreeOn?] at hu
      | succ n =>
          rw [subtreeOn?_succ, isLeaf_iff.1 hleaf] at hu
          cases hu

/-- When something without a foot at its root takes the place of the only foot, no node of the tree
is a foot any more. -/
lemma exists_not_foot (h : IsOnlyFoot t f) (ht' : t.IsReplacement f v t') (hv : v.foot = false)
    {b : Address} (hu : t.subtreeAt? b = some u) :
    ∃ u', t'.subtreeAt? b = some u' ∧ u'.foot = false := by
  by_cases hb : b = f
  · subst hb
    have hwithin := ht'.within []
    rw [List.append_nil] at hwithin
    exact ⟨v, by simpa [subtreeAt?, subtreeOn?] using hwithin, hv⟩
  have hfoot : u.foot = false := Bool.eq_false_of_not_eq_true fun hfoot => hb (h.eq b u hu hfoot)
  by_cases habove : b.path <+: f.path
  · obtain ⟨w, w', hw, hw', -, hkept, -⟩ := ht'.above b habove hb
    obtain rfl := Option.some.inj (hu.symm.trans hw)
    exact ⟨w', hw', hkept.trans hfoot⟩
  · have hbelow : ¬f.path <+: b.path := fun hf => hb (h.eq_of_isPrefix hu hf)
    exact ⟨u, (ht'.beside b habove hbelow).trans hu, hfoot⟩

end IsOnlyFoot

/-! ### Adjunction and substitution -/

lemma exists_adjoinAt?_iff : (∃ t', t.adjoinAt? a u = some t') ↔
    (∃ v, t.subtreeAt? a = some v ∧ v.label = u.label) ∧
      ∃ f w, u.subtreeAt? f = some w ∧ w.foot = true := by
  rw [← exists_footAddress?_iff]
  constructor
  · rintro ⟨t', h⟩
    obtain ⟨v, f, -, hv, hlabel, hf, -, -⟩ := adjoinAt?_eq_some_iff.1 h
    exact ⟨⟨v, hv, hlabel.symm⟩, f, hf⟩
  · rintro ⟨⟨v, hv, hlabel⟩, f, hf⟩
    obtain ⟨w, hw, -⟩ := exists_of_find? hf
    obtain ⟨wrapped, hwrapped⟩ := exists_replaceOn? { v with foot := false } hw
    obtain ⟨t', ht'⟩ := exists_replaceOn? wrapped hv
    exact ⟨t', adjoinAt?_eq_some_iff.2 ⟨v, f, wrapped, hv, hlabel.symm, hf, hwrapped, ht'⟩⟩

lemma exists_substituteAt?_iff : (∃ t', t.substituteAt? a u = some t') ↔
    ∃ v, t.subtreeAt? a = some v ∧ v.isLeaf = true ∧ v.label = u.label := by
  constructor
  · rintro ⟨t', h⟩
    exact (substituteAt?_eq_some_iff.1 h).1
  · rintro ⟨v, hv, hsite⟩
    obtain ⟨t', ht'⟩ := exists_replaceOn? u hv
    exact ⟨t', substituteAt?_eq_some_iff.2 ⟨⟨v, hv, hsite⟩, ht'⟩⟩

/-- An adjunction puts the leaves on both sides of the foot around those of the subtree. -/
lemma leafLabels_adjoinAt?_of_footAddress? (hv : t.subtreeAt? a = some v)
    (hf : u.footAddress? = some f) (h : t.adjoinAt? a u = some t') :
    t'.leafLabels = t.leafLabelsLeftOf a.path ++ u.leafLabelsLeftOf f.path ++ v.leafLabels ++
      u.leafLabelsRightOf f.path ++ t.leafLabelsRightOf a.path := by
  obtain ⟨f', wrapped, hf', hwrapped, ht'⟩ := adjoinAt?_eq_some hv h
  obtain rfl := Option.some.inj (hf'.symm.trans hf)
  rw [leafLabels_replaceOn? ht', leafLabels_replaceOn? hwrapped, leafLabels_setFoot]
  simp only [List.append_assoc]

/-- An adjunction at the only foot puts the leaves of an auxiliary tree on both sides of those of
the subtree. -/
lemma leafLabels_adjoinAt? (hv : t.subtreeAt? a = some v) (hf : u.IsOnlyFoot f)
    (h : t.adjoinAt? a u = some t') :
    t'.leafLabels = t.leafLabelsLeftOf a.path ++ u.leafLabelsLeftOf f.path ++ v.leafLabels ++
      u.leafLabelsRightOf f.path ++ t.leafLabelsRightOf a.path :=
  leafLabels_adjoinAt?_of_footAddress? hv hf.footAddress?_eq h

/-- After an adjunction at the only foot, no node of the auxiliary tree is a foot. -/
lemma exists_not_foot_adjoinAt? (hv : t.subtreeAt? a = some v) (hf : u.IsOnlyFoot f)
    (h : t.adjoinAt? a u = some t') {b : Address} {w : Tree} (hw : u.subtreeAt? b = some w) :
    ∃ w', t'.subtreeAt? ⟨a.path ++ b.path⟩ = some w' ∧ w'.foot = false := by
  obtain ⟨f', wrapped, hf', hwrapped, ht'⟩ := adjoinAt?_eq_some hv h
  obtain rfl := Option.some.inj (hf'.symm.trans hf.footAddress?_eq)
  obtain ⟨w', hw', hfoot⟩ := hf.exists_not_foot (isReplacement_of_replaceAt? hwrapped) rfl hw
  exact ⟨w', ((isReplacement_of_replaceAt? ht').within b.path).trans hw', hfoot⟩

/-- Replacement is possible at every node, adjunction of a tree with a foot at every node with its
label, and substitution at every leaf with the right label. All three change a tree only at that
node: they exchange the leaves between those on its left and on its right, and adjunction puts the
old ones between the leaves on both sides of the only foot, which is no foot any more. -/
theorem surgery_at_site (t u : Tree) (a : Address) :
    (∀ v, t.subtreeAt? a = some v →
        t.leafLabels = t.leafLabelsLeftOf a.path ++ v.leafLabels ++ t.leafLabelsRightOf a.path) ∧
      ((∃ t', t.replaceAt? a u = some t') ↔ ∃ v, t.subtreeAt? a = some v) ∧
      (∀ t', t.replaceAt? a u = some t' → t.IsReplacement a u t') ∧
      ((∃ t', t.adjoinAt? a u = some t') ↔
        (∃ v, t.subtreeAt? a = some v ∧ v.label = u.label) ∧
          ∃ f w, u.subtreeAt? f = some w ∧ w.foot = true) ∧
      (∀ v t', t.subtreeAt? a = some v → t.adjoinAt? a u = some t' →
        (∃ f wrapped, u.footAddress? = some f ∧
          u.IsReplacement f { v with foot := false } wrapped ∧ t.IsReplacement a wrapped t') ∧
        ∀ f, u.IsOnlyFoot f →
          t'.leafLabels = t.leafLabelsLeftOf a.path ++ u.leafLabelsLeftOf f.path ++ v.leafLabels ++
            u.leafLabelsRightOf f.path ++ t.leafLabelsRightOf a.path ∧
          ∀ b w, u.subtreeAt? b = some w →
            ∃ w', t'.subtreeAt? ⟨a.path ++ b.path⟩ = some w' ∧ w'.foot = false) ∧
      ((∃ t', t.substituteAt? a u = some t') ↔
        ∃ v, t.subtreeAt? a = some v ∧ v.isLeaf = true ∧ v.label = u.label) ∧
      ∀ t', t.substituteAt? a u = some t' → t.IsReplacement a u t' ∧ t'.leafLabels =
        t.leafLabelsLeftOf a.path ++ u.leafLabels ++ t.leafLabelsRightOf a.path := by
  refine ⟨fun v hv => leafLabels_eq_of_subtreeOn? hv, exists_replaceAt?_iff,
    fun t' h => isReplacement_of_replaceAt? h, exists_adjoinAt?_iff,
    fun v t' hv h => ⟨?_, fun f hf => ⟨leafLabels_adjoinAt? hv hf h, fun b w hw =>
      exists_not_foot_adjoinAt? hv hf h hw⟩⟩, exists_substituteAt?_iff, fun t' h => ?_⟩
  · obtain ⟨f, wrapped, hf, hwrapped, ht'⟩ := adjoinAt?_eq_some hv h
    exact ⟨f, wrapped, hf, isReplacement_of_replaceAt? hwrapped, isReplacement_of_replaceAt? ht'⟩
  · have ht' := (substituteAt?_eq_some_iff.1 h).2
    exact ⟨isReplacement_of_replaceAt? ht', leafLabels_replaceOn? ht'⟩

end DeductiveParsing.Tree
