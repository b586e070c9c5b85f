/-
Grammars whose inner nodes have nonterminals.

* `Grammar.IsDeclared`: whether a node is a leaf or has a nonterminal;
* `Grammar.declared`: a grammar without the elementary trees that have any other node;
* `IsWellFormed.declared`: it is well-formed if the whole grammar is;
* `IsWellFormed.generates_declared_iff`: it generates what is spelled by the derived trees of the
  whole grammar whose inner nodes have nonterminals.
-/
import DeductiveParsing.Proofs.TreeAdjoining.Nodes

namespace DeductiveParsing.TreeAdjoining.Grammar

variable {g : Grammar} {Stays : Tree → Prop} {t u : Tree} {name : String}

/-! ### Trees whose inner nodes have nonterminals -/

/-- Whether a node is a leaf or has a nonterminal. -/
def IsDeclared (g : Grammar) (t : Tree) : Prop := t.children ≠ [] → t.label ∈ g.nonterminals

instance (g : Grammar) (t : Tree) : Decidable (g.IsDeclared t) :=
  inferInstanceAs (Decidable (_ → _))

instance (g : Grammar) (t : Tree) : Decidable (t.Everywhere g.IsDeclared) :=
  inferInstanceAs (Decidable (∀ u ∈ t.nodes.map Prod.snd, g.IsDeclared u))

lemma isDeclared_of_leaf (h : t.children = []) : g.IsDeclared t := fun hinner => absurd h hinner

/-- A leaf has no other node than itself. -/
lemma everywhere_isDeclared_of_leaf (h : t.children = []) : t.Everywhere g.IsDeclared :=
  Tree.everywhere_iff.2 ⟨isDeclared_of_leaf h, by simp [h]⟩

lemma isInherited_isDeclared (g : Grammar) : Tree.IsInherited g.IsDeclared :=
  fun _ _ hinner _ h _ => h hinner

/-- An inner node with other children has a nonterminal, and what holds of the children once their
inner nodes have nonterminals holds of them. -/
lemma forall₂_of_everywhere {R : Tree → Tree → Prop} {us : List Tree} (hinner : t.children ≠ [])
    (hus : List.Forall₂ (fun t u => u.Everywhere g.IsDeclared → R t u) t.children us)
    (h : ({ t with children := us } : Tree).Everywhere g.IsDeclared) :
    t.label ∈ g.nonterminals ∧ List.Forall₂ R t.children us := by
  obtain ⟨hroot, hall⟩ := Tree.everywhere_iff.1 h
  have hus' : us ≠ [] := by
    rintro rfl
    exact hinner (List.forall₂_nil_right_iff.1 hus)
  have hboth := ((List.forall₂_and_left _ _).2 ⟨hall, hus.flip⟩).flip
  exact ⟨hroot hus', hboth.imp fun _ _ hu => hu.2 hu.1⟩

/-! ### The grammar of these trees -/

/-- The grammar without the elementary trees that have an inner node whose label is no
nonterminal. -/
def declared (g : Grammar) : Grammar :=
  { g with
    initial := g.initial.filter fun named => named.2.Everywhere g.IsDeclared
    auxiliary := g.auxiliary.filter fun named => named.2.Everywhere g.IsDeclared }

lemma mem_initial_declared : (name, t) ∈ g.declared.initial ↔
    (name, t) ∈ g.initial ∧ t.Everywhere g.IsDeclared := by
  simp [declared]

lemma mem_auxiliary_declared : (name, t) ∈ g.declared.auxiliary ↔
    (name, t) ∈ g.auxiliary ∧ t.Everywhere g.IsDeclared := by
  simp [declared]

lemma mem_trees_declared : (name, t) ∈ g.declared.trees ↔
    (name, t) ∈ g.trees ∧ t.Everywhere g.IsDeclared := by
  rw [trees, trees, List.mem_append, List.mem_append, mem_initial_declared, mem_auxiliary_declared,
    or_and_right]

/-- Nothing is left out if all inner nodes have nonterminals. -/
lemma declared_eq_self (h : ∀ named ∈ g.trees, named.2.Everywhere g.IsDeclared) :
    g.declared = g := by
  have hall : ∀ trees : NamedTrees, trees ⊆ g.trees →
      trees.filter (fun named => named.2.Everywhere g.IsDeclared) = trees := fun trees hsub =>
    List.filter_eq_self.2 fun named hnamed => decide_eq_true (h named (hsub hnamed))
  have hinitial := hall g.initial (List.subset_append_left _ _)
  have hauxiliary := hall g.auxiliary (List.subset_append_right _ _)
  rw [declared, hinitial, hauxiliary]

lemma HasLeafFeet.declared (h : g.HasLeafFeet) : g.declared.HasLeafFeet :=
  fun named hnamed => h named (mem_trees_declared.1 hnamed).1

lemma IsBinary.declared (h : g.IsBinary) : g.declared.IsBinary :=
  fun named hnamed => h named (mem_trees_declared.1 hnamed).1

/-- A derivation with fewer elementary trees is one with all of them. -/
lemma Derives.of_declared (h : g.declared.Derives Stays t u) : g.Derives Stays t u := by
  have hinitial : g.declared.initial ⊆ g.initial := List.filter_subset_self _
  have hauxiliary : g.declared.auxiliary ⊆ g.auxiliary := List.filter_subset_self _
  have hsites : ∀ t, g.declared.IsSite t → g.IsSite t := fun _ hsite => hsite
  exact h.mono hsites hinitial hauxiliary fun _ hstays => hstays

namespace IsWellFormed

lemma declared (h : g.IsWellFormed) : g.declared.IsWellFormed where
  nodup_names := by
    refine h.nodup_names.sublist (List.Sublist.map _ ?_)
    exact List.filter_sublist.append List.filter_sublist
  feet_initial named hnamed := h.feet_initial named (mem_initial_declared.1 hnamed).1
  feet_auxiliary named hnamed := h.feet_auxiliary named (mem_auxiliary_declared.1 hnamed).1
  isLabelled named hnamed := h.isLabelled named (mem_trees_declared.1 hnamed).1

/-! ### Derivations -/

/-- A derivation of a tree whose inner nodes have nonterminals has no use for other elementary
trees. -/
theorem derives_declared (hg : g.IsWellFormed) (hfeet : g.HasLeafFeet) (h : g.Derives Stays t u)
    (hu : u.Everywhere g.IsDeclared) :
    t.Everywhere g.IsDeclared ∧ g.declared.Derives Stays t u := by
  have hchildren : ∀ {t : Tree} {us : List Tree}, t.children ≠ [] →
      List.Forall₂ (fun t u => u.Everywhere g.IsDeclared →
        t.Everywhere g.IsDeclared ∧ g.declared.Derives Stays t u) t.children us →
      ({ t with children := us } : Tree).Everywhere g.IsDeclared →
        t.Everywhere g.IsDeclared ∧ List.Forall₂ (g.declared.Derives Stays) t.children us := by
    intro t us hinner hus h
    obtain ⟨hlabel, hboth⟩ := forall₂_of_everywhere hinner hus h
    obtain ⟨hts, hderives⟩ := (List.forall₂_and_left _ _).1 hboth
    exact ⟨Tree.everywhere_iff.2 ⟨fun _ => hlabel, hts⟩, hderives⟩
  revert hu
  refine Derives.ind ?stay ?substitute ?inner ?adjoin h
  case stay => exact fun t hleaf hstays ht => ⟨ht, .stay hleaf hstays⟩
  case substitute =>
    intro t u alpha name hsite hmem hlabel _ ih hu
    obtain ⟨halpha, hderives⟩ := ih hu
    exact ⟨everywhere_isDeclared_of_leaf hsite.1,
      .substitute hsite (mem_initial_declared.2 ⟨hmem, halpha⟩) hlabel hderives⟩
  case inner =>
    intro t us hinner _ ih hu
    obtain ⟨ht, hus⟩ := hchildren hinner ih hu
    exact ⟨ht, .inner hinner hus⟩
  case adjoin =>
    intro t us beta b name hinner _ ihus hmem hlabel hb ihb hu
    have hone : b.frontier.count none = 1 := by
      rw [hg.count_none_derives hfeet hb, hg.count_none_auxiliary hfeet hmem]
    have hhole : none ∈ b.frontier := List.count_pos_iff.1 (hone ▸ Nat.one_pos)
    obtain ⟨ht, hus⟩ := hchildren hinner ihus (Tree.everywhere_of_atFoot_of_hole hhole hu)
    obtain ⟨hbeta, hderives⟩ := ihb (Tree.everywhere_of_atFoot (isInherited_isDeclared g)
      (fun _ => isDeclared_of_leaf) hu)
    exact ⟨ht, .adjoin hinner hus (mem_auxiliary_declared.2 ⟨hmem, hbeta⟩) hlabel hderives⟩

/-- The grammar of these trees generates what is spelled by derived trees whose inner nodes have
nonterminals. -/
theorem generates_declared_iff (hg : g.IsWellFormed) (hfeet : g.HasLeafFeet)
    {tokens : List String} :
    g.declared.Generates Stays tokens ↔ ∃ name alpha u, (name, alpha) ∈ g.initial ∧
      alpha.label = g.start ∧ g.Derives Stays alpha u ∧ u.Everywhere g.IsDeclared ∧
      u.frontier = tokens.map some := by
  constructor
  · rintro ⟨name, alpha, u, hmem, hstart, hderives, hfrontier⟩
    obtain ⟨hmem, halpha⟩ := mem_initial_declared.1 hmem
    have hu := hderives.everywhere (isInherited_isDeclared g)
      (fun named hnamed => (mem_trees_declared.1 hnamed).2) halpha
    exact ⟨name, alpha, u, hmem, hstart, hderives.of_declared, hu, hfrontier⟩
  · rintro ⟨name, alpha, u, hmem, hstart, hderives, hu, hfrontier⟩
    obtain ⟨halpha, hderives⟩ := hg.derives_declared hfeet hderives hu
    exact ⟨name, alpha, u, mem_initial_declared.2 ⟨hmem, halpha⟩, hstart, hderives, hfrontier⟩

/-- It generates nothing that the whole grammar does not. -/
lemma generates_of_declared (hg : g.IsWellFormed) (hfeet : g.HasLeafFeet) {tokens : List String}
    (h : g.declared.Generates Stays tokens) : g.Generates Stays tokens := by
  obtain ⟨name, alpha, u, hmem, hstart, hderives, -, hfrontier⟩ :=
    (hg.generates_declared_iff hfeet).1 h
  exact ⟨name, alpha, u, hmem, hstart, hderives, hfrontier⟩

end IsWellFormed

end DeductiveParsing.TreeAdjoining.Grammar
