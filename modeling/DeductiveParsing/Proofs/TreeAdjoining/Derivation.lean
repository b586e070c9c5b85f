/-
Derivations of tree-adjoining grammars.

* `Grammar.Derives`: the trees that an elementary tree gives rise to when its substitution nodes are
  filled with derived initial trees, and nothing or one derived auxiliary tree adjoins at each inner
  node;
* `Grammar.Derives.ind`: induction over derivations;
* `Grammar.Derives.everywhere`: what derived trees inherit from elementary trees;
* `Grammar.Generates`: the sequences of tokens that are spelled by a tree derived from an initial
  tree with the start symbol;
* `IsWellFormed.count_none_derives`: derived trees have as many holes as elementary trees.
-/
import DeductiveParsing.Proofs.GrammarFile.TreeAdjoining
import DeductiveParsing.Proofs.Tree.Surgery

namespace DeductiveParsing.TreeAdjoining

namespace Grammar

/-! ### Derivations -/

/-- A leaf that may be filled by an initial tree: one with a nonterminal that is no foot. -/
def IsSite (g : Grammar) (t : Tree) : Prop :=
  t.children = [] ∧ t.foot = false ∧ t.label ∈ g.nonterminals

/-- A leaf that need not be filled: a foot, a leaf for the empty string or one with a terminal. -/
def MayStay (g : Grammar) (t : Tree) : Prop :=
  t.foot = true ∨ t.isEpsilon = true ∨ t.label ∈ g.terminals

/-- A leaf that need not be filled and may not be either. -/
def MustStay (g : Grammar) (t : Tree) : Prop := g.MayStay t ∧ ¬g.IsSite t

/-- The trees derived from an elementary tree or a part of one. A leaf stays, where `Stays` allows
it, or an initial tree with its label is substituted. At an inner node nothing adjoins, or one
auxiliary tree with its label, at whose foot the node then stands. All these trees are derived in
their turn. -/
inductive Derives (g : Grammar) (Stays : Tree → Prop) : Tree → Tree → Prop where
  | stay {t : Tree} (hleaf : t.children = []) (h : Stays t) : Derives g Stays t t
  | substitute {t u alpha : Tree} {name : String} (hsite : g.IsSite t)
      (hmem : (name, alpha) ∈ g.initial) (hlabel : alpha.label = t.label)
      (h : Derives g Stays alpha u) : Derives g Stays t u
  | inner {t : Tree} {us : List Tree} (hinner : t.children ≠ [])
      (hus : List.Forall₂ (Derives g Stays) t.children us) :
      Derives g Stays t { t with children := us }
  | adjoin {t b beta : Tree} {us : List Tree} {name : String} (hinner : t.children ≠ [])
      (hus : List.Forall₂ (Derives g Stays) t.children us) (hmem : (name, beta) ∈ g.auxiliary)
      (hlabel : beta.label = t.label) (hb : Derives g Stays beta b) :
      Derives g Stays t (Tree.atFoot { t with children := us } b)

/-- A sequence of tokens is generated if it is what a tree derived from an initial tree with the
start symbol spells. -/
def Generates (g : Grammar) (Stays : Tree → Prop) (tokens : List String) : Prop :=
  ∃ name alpha u, (name, alpha) ∈ g.initial ∧ alpha.label = g.start ∧ g.Derives Stays alpha u ∧
    u.frontier = tokens.map some

variable {g : Grammar} {Stays : Tree → Prop} {t u : Tree} {name : String}

/-- A relation holds of every tree and the trees derived from it once it is inherited from the
derivations of the children and of the trees that are substituted or adjoined. -/
@[elab_as_elim]
theorem Derives.ind {P : Tree → Tree → Prop}
    (stay : ∀ t, t.children = [] → Stays t → P t t)
    (substitute : ∀ t u alpha name, g.IsSite t → (name, alpha) ∈ g.initial →
      alpha.label = t.label → g.Derives Stays alpha u → P alpha u → P t u)
    (inner : ∀ t us, t.children ≠ [] → List.Forall₂ (g.Derives Stays) t.children us →
      List.Forall₂ P t.children us → P t { t with children := us })
    (adjoin : ∀ t us beta b name, t.children ≠ [] → List.Forall₂ (g.Derives Stays) t.children us →
      List.Forall₂ P t.children us → (name, beta) ∈ g.auxiliary → beta.label = t.label →
      g.Derives Stays beta b → P beta b → P t (Tree.atFoot { t with children := us } b))
    {t u : Tree} (h : g.Derives Stays t u) : P t u :=
  @Derives.rec g Stays (fun t u _ => P t u) (fun ts us _ => List.Forall₂ P ts us)
    (fun hleaf h => stay _ hleaf h)
    (fun hsite hmem hlabel h ih => substitute _ _ _ _ hsite hmem hlabel h ih)
    (fun hinner hus ih => inner _ _ hinner hus ih)
    (fun hinner hus hmem hlabel hb ihus ihb =>
      adjoin _ _ _ _ _ hinner hus ihus hmem hlabel hb ihb)
    .nil (fun _ _ ih ihs => .cons ih ihs) t u h

/-- Fewer elementary trees and fewer leaves that may stay or be filled lead to fewer trees. -/
lemma Derives.mono {g' : Grammar} {Stays' : Tree → Prop} (hsites : ∀ t, g.IsSite t → g'.IsSite t)
    (hinitial : g.initial ⊆ g'.initial) (hauxiliary : g.auxiliary ⊆ g'.auxiliary)
    (hstays : ∀ t, Stays t → Stays' t) (h : g.Derives Stays t u) : g'.Derives Stays' t u := by
  refine Derives.ind ?stay ?substitute ?inner ?adjoin h
  case stay => exact fun t hleaf h => .stay hleaf (hstays t h)
  case substitute =>
    exact fun t u alpha name hsite hmem hlabel _ ih =>
      .substitute (hsites t hsite) (hinitial hmem) hlabel ih
  case inner => exact fun t us hinner _ ih => .inner hinner ih
  case adjoin =>
    exact fun t us beta b name hinner _ ihus hmem hlabel _ ihb =>
      .adjoin hinner ihus (hauxiliary hmem) hlabel ihb

/-- A derived tree has the label of the tree that it is derived from. -/
lemma Derives.label_eq (h : g.Derives Stays t u) : u.label = t.label := by
  refine Derives.ind ?stay ?substitute ?inner ?adjoin h
  case stay => exact fun t _ _ => rfl
  case substitute => exact fun t u alpha name _ _ hlabel _ ih => ih.trans hlabel
  case inner => exact fun t us _ _ _ => rfl
  case adjoin =>
    intro t us beta b name _ _ _ _ hlabel _ ihb
    have hb : b.label = t.label := ihb.trans hlabel
    exact (Tree.label_atFoot (v := { t with children := us }) hb.symm).trans hb

/-- What holds of all subtrees of elementary trees, and of inner nodes with any children, holds of
all subtrees of derived trees. -/
theorem Derives.everywhere {P : Tree → Prop} (hP : Tree.IsInherited P)
    (hg : ∀ named ∈ g.trees, named.2.Everywhere P) (h : g.Derives Stays t u) (ht : t.Everywhere P) :
    u.Everywhere P := by
  have hinner : ∀ {t : Tree} {us : List Tree}, t.children ≠ [] →
      List.Forall₂ (fun t u => t.Everywhere P → u.Everywhere P) t.children us →
        t.Everywhere P → ({ t with children := us } : Tree).Everywhere P := by
    intro t us hne hus ht
    obtain ⟨hroot, hchildren⟩ := Tree.everywhere_iff.1 ht
    have hus' : us ≠ [] := by
      rintro rfl
      exact hne (List.forall₂_nil_right_iff.1 hus)
    refine Tree.everywhere_iff.2 ⟨hP t us hne hus' hroot, fun u hu => ?_⟩
    obtain ⟨i, hi, rfl⟩ := List.mem_iff_getElem.1 hu
    have hlength : i < t.children.length := hus.length_eq ▸ hi
    exact hus.get hlength hi (hchildren _ (List.getElem_mem hlength))
  revert ht
  refine Derives.ind ?stay ?substitute ?inner ?adjoin h
  case stay => exact fun t _ _ ht => ht
  case substitute =>
    exact fun t u alpha name _ hmem _ _ ih _ => ih (hg _ (List.mem_append_left _ hmem))
  case inner => exact fun t us hne _ ih ht => hinner hne ih ht
  case adjoin =>
    exact fun t us beta b name hne _ ihus hmem _ _ ihb ht =>
      (ihb (hg _ (List.mem_append_right _ hmem))).atFoot hP (hinner hne ihus ht)

/-- If no nonterminal is declared as a terminal too or stands for the empty string, no leaf that
may stay may be filled. -/
theorem generates_mustStay_iff {tokens : List String}
    (h : ∀ a ∈ g.nonterminals, a ∉ g.terminals ∧ a ≠ epsilon ∧ a ≠ "") :
    g.Generates g.MustStay tokens ↔ g.Generates g.MayStay tokens := by
  have hsite : ∀ t, g.MayStay t → ¬g.IsSite t := by
    rintro t hstays ⟨-, hfoot, hmem⟩
    obtain ⟨hterminal, hepsilon, hempty⟩ := h t.label hmem
    rcases hstays with hstays | hstays | hstays
    · rw [hfoot] at hstays
      cases hstays
    · exact (Tree.isEpsilon_iff.1 hstays).2.elim hepsilon hempty
    · exact hterminal hstays
  constructor
  · rintro ⟨name, alpha, u, hmem, hstart, hderives, hfrontier⟩
    exact ⟨name, alpha, u, hmem, hstart, hderives.mono (fun _ => id) (fun _ => id) (fun _ => id)
      fun t ht => ht.1, hfrontier⟩
  · rintro ⟨name, alpha, u, hmem, hstart, hderives, hfrontier⟩
    exact ⟨name, alpha, u, hmem, hstart, hderives.mono (fun _ => id) (fun _ => id) (fun _ => id)
      fun t ht => ⟨ht, hsite t ht⟩, hfrontier⟩

/-- The frontier of a node whose children are derived. -/
lemma frontier_with_children (g : Grammar) {us : List Tree} (h : t.children ≠ [])
    (hus : List.Forall₂ (g.Derives Stays) t.children us) :
    ({ t with children := us } : Tree).frontier = us.flatMap Tree.frontier := by
  refine Tree.frontier_of_children (t := { t with children := us }) ?_
  rintro rfl
  exact h (List.forall₂_nil_right_iff.1 hus)

/-! ### Grammars with leaves for feet -/

/-- Whether every foot of an elementary tree is a leaf. -/
def HasLeafFeet (g : Grammar) : Prop :=
  ∀ named ∈ g.trees, ∀ node ∈ named.2.nodes, node.2.foot = true → node.2.isLeaf = true

instance (g : Grammar) : Decidable g.HasLeafFeet :=
  inferInstanceAs (Decidable (∀ named ∈ g.trees, ∀ node ∈ named.2.nodes, _ → _))

lemma count_none_flatMap {ts us : List Tree}
    (h : List.Forall₂ (fun t u => u.frontier.count none = t.frontier.count none) ts us) :
    (us.flatMap Tree.frontier).count none = (ts.flatMap Tree.frontier).count none := by
  induction h with
  | nil => rfl
  | cons hu _ ih =>
      rw [List.flatMap_cons, List.flatMap_cons, List.count_append, List.count_append, hu, ih]

namespace IsWellFormed

lemma count_none_initial (h : g.IsWellFormed) (hmem : (name, t) ∈ g.initial) :
    t.frontier.count none = 0 := by
  rw [Tree.count_none_frontier, List.length_eq_zero_iff, List.filter_eq_nil_iff]
  intro u hu
  have hfoot := List.filter_eq_nil_iff.1 (h.feet_initial _ hmem) u hu
  simp [Bool.eq_false_iff.2 hfoot]

lemma count_none_auxiliary (h : g.IsWellFormed) (hfeet : g.HasLeafFeet)
    (hmem : (name, t) ∈ g.auxiliary) : t.frontier.count none = 1 := by
  obtain ⟨foot, hfoot, -⟩ := h.feet_auxiliary _ hmem
  have hleaf : ∀ u ∈ t.nodes.map Prod.snd, (u.foot && u.isLeaf) = u.foot := by
    intro u hu
    obtain ⟨node, hnode, rfl⟩ := List.mem_map.1 hu
    have := hfeet _ (List.mem_append_right _ hmem) node hnode
    cases hnodefoot : node.2.foot with
    | true => simp [this hnodefoot]
    | false => rfl
  rw [Tree.count_none_frontier, List.filter_congr hleaf]
  exact congrArg List.length hfoot

/-- There is at most one hole in an elementary tree. -/
lemma count_none_le_one (h : g.IsWellFormed) (hfeet : g.HasLeafFeet)
    (hmem : (name, t) ∈ g.trees) : t.frontier.count none ≤ 1 := by
  rcases List.mem_append.1 hmem with hmem | hmem
  · exact (h.count_none_initial hmem).trans_le (Nat.zero_le _)
  · exact (h.count_none_auxiliary hfeet hmem).le

/-- Derived trees have as many holes as the trees they are derived from. -/
theorem count_none_derives (h : g.IsWellFormed) (hfeet : g.HasLeafFeet)
    (hderives : g.Derives Stays t u) : u.frontier.count none = t.frontier.count none := by
  have hinner : ∀ {t : Tree} {us : List Tree}, t.children ≠ [] →
      List.Forall₂ (g.Derives Stays) t.children us →
        List.Forall₂ (fun t u => u.frontier.count none = t.frontier.count none) t.children us →
          ({ t with children := us } : Tree).frontier.count none = t.frontier.count none := by
    intro t us hne hus hcounts
    rw [g.frontier_with_children hne hus, Tree.frontier_of_children hne,
      count_none_flatMap hcounts]
  refine Derives.ind ?stay ?substitute ?inner ?adjoin hderives
  case stay => exact fun t _ _ => rfl
  case substitute =>
    intro t u alpha name hsite hmem hlabel _ ih
    rw [ih, h.count_none_initial hmem]
    obtain ⟨hleaf, hfoot, -⟩ := hsite
    cases hepsilon : t.isEpsilon with
    | true => rw [Tree.frontier_of_isEpsilon hepsilon hfoot, List.count_nil]
    | false =>
        rw [Tree.frontier_of_label hleaf hfoot hepsilon]
        rfl
  case inner => exact fun t us hne hus ih => hinner hne hus ih
  case adjoin =>
    intro t us beta b name hne hus ihus hmem hlabel _ ihb
    rw [Tree.frontier_atFoot, Tree.count_none_flatMap_fillHole, ihb,
      h.count_none_auxiliary hfeet hmem, Nat.one_mul, hinner hne hus ihus]

/-- The same for sequences of trees. -/
lemma count_none_forall₂ (h : g.IsWellFormed) (hfeet : g.HasLeafFeet) {ts us : List Tree}
    (hus : List.Forall₂ (g.Derives Stays) ts us) :
    (us.flatMap Tree.frontier).count none = (ts.flatMap Tree.frontier).count none :=
  count_none_flatMap (hus.imp fun _ _ hu => h.count_none_derives hfeet hu)

end IsWellFormed

end Grammar

/-! ### Brackets -/

/-- A file with a tree for nothing and one that puts brackets around something. -/
def bracketsFile : String :=
  "N = \x7b\"S\"\x7d\nT = \x7b\"a\", \"b\"\x7d\nS = \"S\"\nI = \x7b\"α : (S ε)\"\x7d\n" ++
    "A = \x7b\"β : (S a (S S* b))\"\x7d\n"

/-- The auxiliary tree in that file. -/
def bracketsTree : Tree := .branch "S" [.leaf "a", .branch "S" [.footLeaf "S", .leaf "b"]]

/-- The grammar in that file. -/
def bracketsGrammar : Grammar :=
  ⟨["S"], ["a", "b"], "S", [("α", .branch "S" [.leaf "ε"])], [("β", bracketsTree)]⟩

lemma read_bracketsFile : GrammarFile.readTreeAdjoining bracketsFile = .ok bracketsGrammar := by
  decide +kernel

/-- Two brackets around nothing are generated. -/
lemma generates_brackets : bracketsGrammar.Generates bracketsGrammar.MayStay ["a", "b"] := by
  have hstay : ∀ t : Tree, t.children = [] → bracketsGrammar.MayStay t →
      bracketsGrammar.Derives bracketsGrammar.MayStay t t := fun t => .stay
  have hlower : bracketsGrammar.Derives bracketsGrammar.MayStay
      (.branch "S" [.footLeaf "S", .leaf "b"]) (.branch "S" [.footLeaf "S", .leaf "b"]) :=
    .inner (List.cons_ne_nil _ _) (.cons (hstay _ rfl (Or.inl rfl))
      (.cons (hstay _ rfl (Or.inr (Or.inr (by decide)))) .nil))
  have hupper : bracketsGrammar.Derives bracketsGrammar.MayStay bracketsTree bracketsTree :=
    .inner (List.cons_ne_nil _ _) (.cons (hstay _ rfl (Or.inr (Or.inr (by decide))))
      (.cons hlower .nil))
  have hnothing : bracketsGrammar.Derives bracketsGrammar.MayStay (.leaf "ε") (.leaf "ε") :=
    hstay _ rfl (Or.inr (Or.inl rfl))
  exact ⟨"α", .branch "S" [.leaf "ε"], _, List.mem_cons_self, rfl,
    .adjoin (List.cons_ne_nil _ _) (.cons hnothing .nil) List.mem_cons_self rfl hupper,
    by decide⟩

/-! ### A symbol that is declared twice -/

/-- A file whose only tree has a leaf with a nonterminal that is a terminal too. -/
def overlapFile : String :=
  "N = \x7b\"S\", \"a\"\x7d\nT = \x7b\"a\"\x7d\nS = \"S\"\nI = \x7b\"α : (S a)\"\x7d\n"

/-- The grammar in that file. -/
def overlapGrammar : Grammar :=
  ⟨["S", "a"], ["a"], "S", [("α", .branch "S" [.leaf "a"])], []⟩

lemma read_overlapFile : GrammarFile.readTreeAdjoining overlapFile = .ok overlapGrammar := by
  decide +kernel

/-- If the leaf may stay, the letter is generated. -/
lemma generates_overlap : overlapGrammar.Generates overlapGrammar.MayStay ["a"] := by
  have hleaf : overlapGrammar.Derives overlapGrammar.MayStay (.leaf "a") (.leaf "a") :=
    .stay rfl (Or.inr (Or.inr List.mem_cons_self))
  exact ⟨"α", .branch "S" [.leaf "a"], .branch "S" [.leaf "a"], List.mem_cons_self, rfl,
    .inner (List.cons_ne_nil _ _) (.cons hleaf .nil), by decide⟩

/-- If the leaf must be filled, it is not, since there is no tree for it. -/
lemma not_generates_overlap : ¬overlapGrammar.Generates overlapGrammar.MustStay ["a"] := by
  have hleaf : ∀ u, ¬overlapGrammar.Derives overlapGrammar.MustStay (.leaf "a") u := by
    intro u h
    cases h with
    | stay _ hstays => exact hstays.2 ⟨rfl, rfl, by simp [Tree.leaf, overlapGrammar]⟩
    | substitute _ hmem hlabel =>
        obtain ⟨-, rfl⟩ := Prod.mk.inj (List.mem_singleton.1 hmem)
        simp [Tree.branch, Tree.leaf] at hlabel
    | inner hinner => exact hinner rfl
    | adjoin hinner => exact hinner rfl
  have hchildren : ∀ us, ¬List.Forall₂ (overlapGrammar.Derives overlapGrammar.MustStay)
      [.leaf "a"] us := by
    intro us hus
    cases hus with
    | cons hu _ => exact hleaf _ hu
  rintro ⟨name, alpha, u, hmem, -, h, -⟩
  obtain ⟨-, rfl⟩ := Prod.mk.inj (List.mem_singleton.1 hmem)
  cases h with
  | stay hchildless => cases hchildless
  | substitute hsite => cases hsite.1
  | inner _ hus => exact hchildren _ hus
  | adjoin _ hus => exact hchildren _ hus

end DeductiveParsing.TreeAdjoining
