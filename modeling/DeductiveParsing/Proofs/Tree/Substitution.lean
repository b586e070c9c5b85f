/-
What substitution at the leftmost open leaf does to a tree.

* `Tree.find?_child`: a search passes over children in which nothing is found;
* `Tree.find?_isOpen_eq_none_iff`: there is an open leaf with a label exactly if the frontier has
  it;
* `Tree.substituteLeftmost?_child`: the substitution takes place in the first child that has such a
  leaf;
* `Tree.exists_substituteLeftmost?_of_mem_frontier`: what it does to the frontier;
* `Forest.mem_fill_nil`, `Forest.mem_fill_cons`: trees substituted one after the other.
-/
import DeductiveParsing.Item.Forest
import DeductiveParsing.Proofs.Choice
import DeductiveParsing.Proofs.Tree.Surgery

namespace DeductiveParsing

namespace Tree

variable {t t' u c c' : Tree} {before behind : List Tree} {label b : String} {foot : Bool}
  {p : Tree → Bool} {a : Address}

/-! ### Searches -/

lemma nodesAmong_append (a : Address) (n : ℕ) (cs ds : List Tree) :
    nodesAmong a n (cs ++ ds) = nodesAmong a n cs ++ nodesAmong a (n + cs.length) ds := by
  induction cs generalizing n with
  | nil => rfl
  | cons c cs ih =>
      rw [List.cons_append, nodesAmong, nodesAmong, ih, List.append_assoc, List.length_cons,
        Nat.add_right_comm, Nat.add_assoc]

/-- A search does not depend on where the tree stands. -/
lemma find?_nodesFrom (a : Address) (t : Tree) (p : Tree → Bool) :
    (nodesFrom a t).find? (fun node => p node.2) =
      (t.nodes.find? fun node => p node.2).map fun node => (⟨a.path ++ node.1.path⟩, node.2) := by
  rw [nodesFrom_eq_map, List.find?_map]
  rfl

/-- A search passes over children in which nothing is found, unless the root has the property. -/
lemma find?_child (hroot : p ⟨label, foot, before ++ c :: behind⟩ = false)
    (hbefore : ∀ d ∈ before, d.find? p = none) (h : c.find? p = some a) :
    find? ⟨label, foot, before ++ c :: behind⟩ p = some ⟨(before.length + 1) :: a.path⟩ := by
  obtain ⟨⟨b, u⟩, hfind, rfl⟩ := Option.map_eq_some_iff.1 h
  have hnone : ∀ ds : List Tree, (∀ d ∈ ds, d.find? p = none) → ∀ n,
      (nodesAmong .root n ds).find? (fun node => p node.2) = none := by
    intro ds
    induction ds with
    | nil => exact fun _ _ => rfl
    | cons d ds ih =>
        intro hds n
        have hd := Option.map_eq_none_iff.1 (hds d List.mem_cons_self)
        rw [nodesAmong, List.find?_append, find?_nodesFrom, hd,
          ih (fun e he => hds e (List.mem_cons_of_mem _ he))]
        rfl
  rw [find?, nodes, nodesFrom, List.find?_cons_of_neg (by simpa using hroot), nodesAmong_append,
    List.find?_append, hnone before hbefore, Option.none_or, nodesAmong, List.find?_append,
    find?_nodesFrom, hfind]
  simp [Address.child, Address.root, Nat.add_comm]

/-- A search in a single node. -/
lemma find?_leaf (hleaf : t.children = []) (hp : p t = true) : t.find? p = some .root := by
  obtain ⟨label, foot, cs⟩ := t
  obtain rfl : cs = [] := hleaf
  rw [find?, nodes, nodesFrom, List.find?_cons_of_pos (by simpa using hp)]
  rfl

/-! ### Open leaves -/

lemma children_eq_nil_of_isOpen (h : t.isOpen = true) : t.children = [] := by
  simp only [isOpen, isLeaf, Bool.and_eq_true, List.isEmpty_iff] at h
  exact h.1.1

lemma isOpen_iff : t.isOpen = true ↔
    t.children = [] ∧ t.foot = false ∧ t.label ≠ epsilon ∧ t.label ≠ "" := by
  rw [isOpen, Bool.and_eq_true, Bool.and_eq_true, isLeaf_iff, Bool.not_eq_true', Bool.not_eq_true',
    ← Bool.not_eq_true t.isEpsilon, isEpsilon_iff]
  constructor
  · rintro ⟨⟨hleaf, hfoot⟩, hnot⟩
    exact ⟨hleaf, hfoot, fun h => hnot ⟨hleaf, Or.inl h⟩, fun h => hnot ⟨hleaf, Or.inr h⟩⟩
  · rintro ⟨hleaf, hfoot, hepsilon, hempty⟩
    exact ⟨⟨hleaf, hfoot⟩, fun h => h.2.elim hepsilon hempty⟩

/-- An open leaf spells its label. -/
lemma frontier_of_isOpen (h : t.isOpen = true) : t.frontier = [some t.label] := by
  obtain ⟨hleaf, hfoot, hepsilon, hempty⟩ := isOpen_iff.1 h
  refine frontier_of_label hleaf hfoot ?_
  rw [← Bool.not_eq_true, isEpsilon_iff]
  exact fun hlabel => hlabel.2.elim hepsilon hempty

/-- A single node has its label on the frontier only if it is open. -/
lemma isOpen_of_mem_frontier (hleaf : t.children = []) (h : some b ∈ t.frontier) :
    t.isOpen = true ∧ t.label = b := by
  by_cases hfoot : t.foot = true
  · simp [frontier_of_foot hleaf hfoot] at h
  have hfoot : t.foot = false := Bool.eq_false_of_not_eq_true hfoot
  by_cases hepsilon : t.isEpsilon = true
  · simp [frontier_of_isEpsilon hepsilon hfoot] at h
  have hepsilon : t.isEpsilon = false := Bool.eq_false_of_not_eq_true hepsilon
  rw [frontier_of_label hleaf hfoot hepsilon, List.mem_singleton] at h
  exact ⟨by simp [isOpen, isLeaf, hleaf, hfoot, hepsilon], (Option.some.inj h).symm⟩

/-- What the frontier has is the label of a leaf. -/
lemma mem_leafLabels_of_mem_frontier (h : some b ∈ t.frontier) : b ∈ t.leafLabels := by
  induction t using ind with
  | h label foot children ih =>
      by_cases hleaf : children = []
      · rw [leafLabels_of_leaf (t := ⟨label, foot, children⟩) hleaf, List.mem_singleton]
        exact (isOpen_of_mem_frontier (t := ⟨label, foot, children⟩) hleaf h).2.symm
      · rw [frontier_of_children (t := ⟨label, foot, children⟩) hleaf, List.mem_flatMap] at h
        rw [leafLabels_of_children (t := ⟨label, foot, children⟩) hleaf, List.mem_flatMap]
        obtain ⟨c, hc, h⟩ := h
        exact ⟨c, hc, ih c hc h⟩

/-- There is an open leaf with a label exactly if the frontier has it. -/
lemma find?_isOpen_eq_none_iff :
    t.find? (fun v => v.isOpen && v.label == b) = none ↔ some b ∉ t.frontier := by
  rw [find?_eq_none_iff]
  constructor
  · intro h hmem
    induction t using ind with
    | h label foot children ih =>
        by_cases hleaf : children = []
        · obtain ⟨hopen, hlabel⟩ := isOpen_of_mem_frontier (t := ⟨label, foot, children⟩) hleaf hmem
          have hroot := h .root _ (subtreeAt?_root _)
          rw [hopen, hlabel, beq_self_eq_true] at hroot
          cases hroot
        · rw [frontier_of_children (t := ⟨label, foot, children⟩) hleaf, List.mem_flatMap] at hmem
          obtain ⟨c, hc, hmem⟩ := hmem
          refine ih c hc (fun a u hu => ?_) hmem
          obtain ⟨n, hn⟩ := List.mem_iff_getElem?.1 hc
          refine h ⟨(n + 1) :: a.path⟩ u ?_
          rw [subtreeAt?, subtreeOn?_succ, hn]
          exact hu
  · intro h a u hu
    rw [← Bool.not_eq_true, Bool.and_eq_true, beq_iff_eq]
    rintro ⟨hopen, rfl⟩
    refine h ((frontier_sublist_of_subtreeOn? hu).subset ?_)
    rw [frontier_of_isOpen hopen]
    exact List.mem_singleton_self _

/-! ### Substitution -/

/-- An open leaf gives way to a tree over its label. -/
lemma substituteLeftmost?_leaf (hopen : t.isOpen = true) (hlabel : t.label = u.label) :
    t.substituteLeftmost? u = some u := by
  rw [substituteLeftmost?, find?_leaf (children_eq_nil_of_isOpen hopen) (by simp [hopen, hlabel])]
  exact replaceOn?_nil t u

/-- The substitution takes place in the first child that has an open leaf for the tree. -/
lemma substituteLeftmost?_child (hbefore : ∀ d ∈ before, some u.label ∉ d.frontier)
    (h : c.substituteLeftmost? u = some c') :
    substituteLeftmost? ⟨label, foot, before ++ c :: behind⟩ u =
      some ⟨label, foot, before ++ c' :: behind⟩ := by
  rw [substituteLeftmost?, Option.bind_eq_bind, Option.bind_eq_some_iff] at h
  obtain ⟨a, ha, h⟩ := h
  have hroot : (⟨label, foot, before ++ c :: behind⟩ : Tree).isOpen = false := by
    rw [← Bool.not_eq_true]
    exact fun hopen => by simpa using children_eq_nil_of_isOpen hopen
  have hfind : find? ⟨label, foot, before ++ c :: behind⟩ (fun v => v.isOpen && v.label == u.label)
      = some ⟨(before.length + 1) :: a.path⟩ :=
    find?_child (by simp [hroot]) (fun d hd => find?_isOpen_eq_none_iff.2 (hbefore d hd)) ha
  rw [substituteLeftmost?, hfind]
  refine replaceOn?_cons.2 ⟨before.length, c, c', rfl, ?_, h, ?_⟩
  · simp
  · simp

/-- A tree has an open leaf for another one if its label is on the frontier. The other frontier
takes the place of the first such label. -/
lemma exists_substituteLeftmost?_of_mem_frontier (h : some u.label ∈ t.frontier) :
    ∃ t' left right, t.substituteLeftmost? u = some t' ∧
      t.frontier = left ++ some u.label :: right ∧ some u.label ∉ left ∧
        t'.frontier = left ++ u.frontier ++ right := by
  induction t using ind with
  | h label foot children ih =>
      by_cases hleaf : children = []
      · obtain ⟨hopen, hlabel⟩ := isOpen_of_mem_frontier (t := ⟨label, foot, children⟩) hleaf h
        refine ⟨u, [], [], substituteLeftmost?_leaf hopen hlabel, ?_, List.not_mem_nil, by simp⟩
        rw [frontier_of_isOpen hopen, hlabel, List.nil_append]
      · rw [frontier_of_children (t := ⟨label, foot, children⟩) hleaf] at h ⊢
        -- the children up to the first one with the label
        obtain ⟨before, c, behind, rfl, hbefore, hc⟩ : ∃ before c behind,
            children = before ++ c :: behind ∧ (∀ d ∈ before, some u.label ∉ d.frontier) ∧
              some u.label ∈ c.frontier := by
          obtain ⟨d, hd, hmem⟩ := List.mem_flatMap.1 h
          have hfind : (children.find? fun d => decide (some u.label ∈ d.frontier)).isSome := by
            rw [List.find?_isSome]
            exact ⟨d, hd, by simpa using hmem⟩
          obtain ⟨c, hc⟩ := Option.isSome_iff_exists.1 hfind
          obtain ⟨hmem, before, behind, rfl, hbefore⟩ := List.find?_eq_some_iff_append.1 hc
          exact ⟨before, c, behind, rfl, by simpa using hbefore, by simpa using hmem⟩
        obtain ⟨c', left, right, hsub, hfrontier, hleft, hfrontier'⟩ :=
          ih c (List.mem_append_right _ List.mem_cons_self) hc
        refine ⟨_, before.flatMap frontier ++ left, right ++ behind.flatMap frontier,
          substituteLeftmost?_child hbefore hsub, ?_, ?_, ?_⟩
        · simp [hfrontier]
        · rw [List.mem_append, List.mem_flatMap]
          rintro (⟨d, hd, hmem⟩ | hmem)
          · exact hbefore d hd hmem
          · exact hleft hmem
        · rw [frontier_of_children (by simp)]
          simp [hfrontier']

/-- What substitution does to the frontier. -/
lemma frontier_substituteLeftmost? (h : t.substituteLeftmost? u = some t') :
    ∃ left right, t.frontier = left ++ some u.label :: right ∧ some u.label ∉ left ∧
      t'.frontier = left ++ u.frontier ++ right := by
  have hmem : some u.label ∈ t.frontier := by
    by_contra hnone
    rw [substituteLeftmost?, find?_isOpen_eq_none_iff.2 hnone] at h
    cases h
  obtain ⟨t'', left, right, hsub, hrest⟩ := exists_substituteLeftmost?_of_mem_frontier hmem
  obtain rfl : t'' = t' := Option.some.inj (hsub.symm.trans h)
  exact ⟨left, right, hrest⟩

end Tree

/-! ### Filling -/

namespace Forest

variable {base t : Tree} {forest : List Tree} {forests : List (List Tree)}

lemma mem_fill_nil : t ∈ fill base [] ↔ t = base := by
  simp [fill, fillings, Choice.mem_distinct, Choice.choices, substituteAll?, eq_comm]

/-- The trees of the first forest are substituted first. -/
lemma mem_fill_cons : t ∈ fill base (forest :: forests) ↔
    ∃ u ∈ forest, ∃ v, base.substituteLeftmost? u = some v ∧ t ∈ fill v forests := by
  simp only [fill, fillings, Choice.mem_distinct, List.mem_filterMap, Choice.choices,
    List.mem_flatMap, List.mem_map]
  constructor
  · rintro ⟨_, ⟨us, hus, u, hu, rfl⟩, h⟩
    obtain ⟨v, hv, h⟩ := Option.bind_eq_some_iff.1 h
    exact ⟨u, hu, v, hv, us, hus, h⟩
  · rintro ⟨u, hu, v, hv, us, hus, h⟩
    exact ⟨u :: us, ⟨us, hus, u, hu, rfl⟩, Option.bind_eq_some_iff.2 ⟨v, hv, h⟩⟩

/-- One forest is substituted tree by tree. -/
lemma mem_fill_singleton : t ∈ fill base [forest] ↔
    ∃ u ∈ forest, base.substituteLeftmost? u = some t := by
  simp [mem_fill_cons, mem_fill_nil]

end Forest

end DeductiveParsing
