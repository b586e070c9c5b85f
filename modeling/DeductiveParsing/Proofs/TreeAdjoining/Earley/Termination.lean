/-
Runs of parsing with trees from the left that end.

* `TreeEarley.Fits`: parts have no more anchors than tokens have been read outside of the gap;
* `TreeEarley.exists_size_le`: so what the walk is below of is bounded in size, if costs are;
* `TreeEarley.isPreserved_fits`: and what is around it, by the number of nodes that the walk has
  gone down;
* `TreeEarley.exists_run_of_acyclic`, `TreeEarley.exists_run_treeEarley`: unless trees without
  anchors lead from one to itself, every run that keeps all derivations ends.
-/
import DeductiveParsing.Proofs.Deduction.Termination
import DeductiveParsing.Proofs.TreeAdjoining.Anchors
import DeductiveParsing.Proofs.TreeAdjoining.Earley.Parts

namespace DeductiveParsing

open TreeAdjoining

variable {g : Grammar} {tokens : List String}

namespace Gap

/-- The number of tokens in a gap. -/
def width : Gap → ℕ
  | ⟨some k, some l⟩ => l - k
  | _ => 0

lemma width_join? {before gap joined : Gap} (h : before.join? gap = some joined) :
    joined.width = before.width + gap.width := by
  rcases join?_eq_some.1 h with ⟨rfl, rfl⟩ | ⟨rfl, rfl⟩
  · exact (Nat.zero_add _).symm
  · rfl

end Gap

namespace TreeEarley

open Grammar (anchors anchors_of_children anchors_of_foot anchors_of_isEpsilon anchors_atFoot)

/-! ### Anchors and tokens -/

/-- Whether parts are derived and have no more anchors than tokens of the input have been read for
them. -/
structure Fits (g : Grammar) (tokens : List String) (p : Visited) : Prop where
  derived : IsDerived g p
  le : (p.2.map g.anchors).sum + p.1.gap.width + p.1.start ≤ p.1.stop
  stop_le : p.1.stop ≤ tokens.length

/-- Passing parts on, every anchor takes a token. -/
lemma fits_of_pass (hg : g.IsWellFormed) (hfeet : g.HasLeafFeet) {ps : List Visited} {q : Visited}
    (hpass : Pass g tokens ps q) (hps : ∀ p ∈ ps, Fits g tokens p) : Fits g tokens q := by
  have hderived := isDerived_of_pass hg hfeet hpass fun p hp => (hps p hp).derived
  have hfirst : ∀ {p rest}, ps = p :: rest → Fits g tokens p := by
    rintro p rest rfl
    exact hps p List.mem_cons_self
  have hsecond : ∀ {p p' rest}, ps = p :: p' :: rest → Fits g tokens p' := by
    rintro p p' rest rfl
    exact hps p' (List.mem_cons_of_mem _ List.mem_cons_self)
  cases hpass with
  | @scanToken name a i gap j b us hb hleaf hterminal htoken =>
      obtain ⟨-, hle, -⟩ := hfirst rfl
      have hone : g.anchors b ≤ 1 := by
        rw [Grammar.anchors_of_leaf hleaf]
        split <;> omega
      refine ⟨hderived, ?_, (List.getElem?_eq_some_iff.1 htoken).1⟩
      simp only [List.map_append, List.map_singleton, List.sum_append, List.sum_singleton] at hle ⊢
      omega
  | @scanEmpty name a i gap j b us hb hempty =>
      obtain ⟨-, hle, hstop⟩ := hfirst rfl
      refine ⟨hderived, ?_, hstop⟩
      simpa [anchors_of_isEpsilon hempty] using hle
  | @start name a c j b hb hc hj => exact ⟨hderived, by simp [Gap.width, Gap.absent], hj⟩
  | @fillFoot aux p i j b hb hfoot hij hj =>
      refine ⟨hderived, ?_, hj⟩
      simp [anchors_of_foot (hg.isLeaf_of_foot hfeet hb hfoot) hfoot, Gap.width, hij]
  | @closeNode name a i before j gap k adjoined joined b us w hb hlabel hjoin =>
      obtain ⟨-, hle, -⟩ := hfirst rfl
      obtain ⟨-, hle', hstop⟩ := hsecond rfl
      refine ⟨hderived, ?_, hstop⟩
      simp only [List.map_append, List.map_singleton, List.sum_append, List.sum_singleton,
        Gap.width_join? hjoin] at hle hle' ⊢
      omega
  | @wrap aux i k l j name a gap u w hadjoin =>
      obtain ⟨hu, hle, hstop⟩ := hfirst rfl
      obtain ⟨-, hle', -⟩ := hsecond rfl
      obtain ⟨beta, _, hbeta, -⟩ := Grammar.isAdjoinable_iff.1 hadjoin
      have hmem := mem_of_lookup_eq_some hbeta
      have hone : u.frontier.count none = 1 := by
        rw [hg.count_none_derives hfeet (hu.derives_root (hg.tree?_of_auxiliary hmem).2),
          hg.count_none_auxiliary hfeet hmem]
      refine ⟨hderived, ?_, hstop⟩
      simp only [List.map_singleton, List.sum_singleton, anchors_atFoot hone, Gap.width] at *
      omega
  | @goDown name a i gap j b hb =>
      obtain ⟨-, hle, hstop⟩ := hfirst rfl
      exact ⟨hderived, hle, hstop⟩
  | @goRight name p n i gap j b us hb =>
      obtain ⟨-, hle, hstop⟩ := hfirst rfl
      exact ⟨hderived, hle, hstop⟩
  | @goUp name p n i gap j b us hb hlast =>
      obtain ⟨hus, hle, hstop⟩ := hfirst rfl
      obtain ⟨hinner, hus⟩ := hus.children hb hlast
      have hne : us ≠ [] := by
        rintro rfl
        exact hinner (List.forall₂_nil_right_iff.1 hus)
      refine ⟨hderived, ?_, hstop⟩
      rw [List.map_singleton, List.sum_singleton,
        anchors_of_children (t := { b with children := us }) hne]
      exact hle
  | @fillNode name a source alpha i j b u hb hsite hmem hlabel =>
      obtain ⟨-, hle, hstop⟩ := hfirst rfl
      exact ⟨hderived, hle, hstop⟩

/-! ### Sizes -/

section Sizes

variable {name : String} {a p : Address} {c : Corner} {b s t u : Tree} {us : List Tree} {n : ℕ}
  {v : NodeVisit}

/-- The size of what the walk is below of, with an input of `n` tokens. -/
def sizeBelow (bounds : g.SizeBounds) (n : ℕ) : ℕ :=
  bounds.nodes * bounds.factor + bounds.anchor * n

variable (bounds : g.SizeBounds)

lemma size_le_sizeBelow (h : b.size ≤ bounds.nodes) : b.size ≤ sizeBelow bounds n :=
  (h.trans (Nat.le_mul_of_pos_right _ bounds.factor_pos)).trans (Nat.le_add_right _ _)

/-- A node with its first children derived is bounded. -/
lemma size_le_of_children (hb : b.size ≤ bounds.nodes) {k : ℕ}
    (hus : List.Forall₂ (g.Derives g.MayStay) (b.children.take k) us)
    (hanchors : (us.map g.anchors).sum ≤ n) :
    ({ b with children := us ++ b.children.drop k } : Tree).size ≤ sizeBelow bounds n := by
  have hsum : ∀ {ts us : List Tree}, List.Forall₂ (g.Derives g.MayStay) ts us →
      (us.map Tree.size).sum ≤
        (ts.map Tree.size).sum * bounds.factor + bounds.anchor * (us.map g.anchors).sum := by
    intro ts us hus
    induction hus with
    | nil => simp
    | cons hu _ ih =>
        have := bounds.size_le_of_derives _ _ hu
        simp only [List.map_cons, List.sum_cons, Nat.mul_add, Nat.add_mul] at *
        omega
  have hchildren : (b.children.map Tree.size).sum =
      ((b.children.take k).map Tree.size).sum + ((b.children.drop k).map Tree.size).sum := by
    rw [← List.sum_append, ← List.map_append, List.take_append_drop]
  have hle := hsum hus
  have hrest := Nat.le_mul_of_pos_right (((b.children.drop k).map Tree.size).sum + 1)
    bounds.factor_pos
  have hmul := Nat.mul_le_mul_left bounds.anchor hanchors
  have hnodes := Nat.mul_le_mul_right bounds.factor hb
  rw [Tree.size_eq b, hchildren] at hnodes
  rw [sizeBelow, Tree.size_eq, List.map_append, List.sum_append]
  simp only [Nat.add_mul] at *
  omega

/-- What the walk is below of at a station is bounded. -/
lemma exists_size_le (hg : g.IsWellFormed) (hshows : Shows g v.tree v.node c t us)
    (hfits : Fits g tokens (v, us)) (hcorner : v.corner = c.text) :
    ∃ s, t.subtreeAt? (base v.node c) = some s ∧ s.size ≤ sizeBelow bounds tokens.length := by
  obtain ⟨b', hb', hpasses⟩ := hfits.derived.exists_passes hcorner
  have hanchors : (us.map g.anchors).sum ≤ tokens.length := by
    have := hfits.le
    have := hfits.stop_le
    simp only at *
    omega
  have hnode : ∀ {a b}, g.node? v.tree a = some b → b.size ≤ bounds.nodes := by
    intro a b hb
    obtain ⟨tree, htree, hsubtree⟩ := Grammar.node?_eq_some_iff.1 hb
    exact (Tree.size_le_of_subtreeOn? hsubtree).trans
      (bounds.size_le _ (List.mem_map_of_mem (hg.tree?_eq_some_iff.1 htree)))
  have hderived : ∀ {b u}, b.size ≤ bounds.nodes → g.Derives g.MayStay b u →
      g.anchors u ≤ tokens.length → u.size ≤ sizeBelow bounds tokens.length := by
    intro b u hb hu hle
    exact (bounds.size_le_of_derives _ _ hu).trans
      (Nat.add_le_add (Nat.mul_le_mul_right _ hb) (Nat.mul_le_mul_left _ hle))
  obtain ⟨name, a, corner, i, gap, j, adjoined⟩ := v
  cases hshows with
  | leftRoot htree =>
      have hb := (g.node?_root name).trans htree
      exact ⟨t, Tree.subtreeAt?_root t, size_le_sizeBelow bounds (hnode hb)⟩
  | @leftChild p n b _ _ hb hlength hp =>
      have hderives : List.Forall₂ _ (g.elders name (p.child (n + 1))) us := hpasses.derives
      rw [Grammar.elders_child hb] at hderives
      exact ⟨_, (congrArg _ (base_child_left p _)).trans hp,
        size_le_of_children bounds (hnode hb) hderives hanchors⟩
  | leftBelow hb ht => exact ⟨_, ht, size_le_sizeBelow bounds (hnode hb)⟩
  | rightBelow hu =>
      cases hpasses.derives with
      | cons hu' _ =>
          refine ⟨_, hu, hderived (hnode hb') hu' ?_⟩
          simpa using hanchors
  | rightRoot =>
      cases hpasses.derives with
      | cons hu' _ =>
          refine ⟨t, Tree.subtreeAt?_root t, hderived (hnode hb') hu' ?_⟩
          simpa using hanchors
  | @rightChild p n b _ _ hb hlength hp =>
      have hderives : List.Forall₂ _ (g.elders name (p.child (n + 1)) ++ [b']) us := hpasses.derives
      rw [← Grammar.elders_sibling hb', Grammar.elders_child hb] at hderives
      exact ⟨_, (congrArg _ (base_child_right p _)).trans hp,
        size_le_of_children bounds (hnode hb) hderives hanchors⟩

end Sizes

/-! ### Bounded trees -/

/-- The labels of all nodes of elementary trees. -/
def labels (g : Grammar) : List String :=
  g.trees.flatMap fun named => named.2.nodes.map fun node => node.2.label

/-- Whether a tree has labels of elementary trees, and is larger than its part below a node by no
more than `most` for each node on the way there. -/
structure IsBounded (g : Grammar) (most : ℕ) (a : Address) (t : Tree) : Prop where
  labels_mem : t.Everywhere fun u => u.label ∈ labels g
  size_le : ∀ s, t.subtreeAt? a = some s → t.size ≤ s.size + a.path.length * most

section Bounded

variable {name : String} {a p : Address} {b t t' x z : Tree} {most : ℕ}

lemma everywhere_labels (hg : g.IsWellFormed) (htree : g.tree? name = some t) :
    t.Everywhere fun u => u.label ∈ labels g := by
  intro u hu
  obtain ⟨node, hnode, rfl⟩ := List.mem_map.1 hu
  exact List.mem_flatMap.2 ⟨(name, t), hg.tree?_eq_some_iff.1 htree, List.mem_map_of_mem hnode⟩

/-- Derived trees have labels of elementary trees. -/
lemma everywhere_labels_of_derives (hg : g.IsWellFormed) (hb : g.node? name a = some b)
    (h : g.Derives g.MayStay b z) : z.Everywhere fun u => u.label ∈ labels g := by
  obtain ⟨tree, htree, hsubtree⟩ := Grammar.node?_eq_some_iff.1 hb
  exact h.everywhere (fun _ _ _ _ hlabel => hlabel)
    (fun named hnamed => everywhere_labels hg (hg.tree?_eq_some_iff.2 hnamed))
    ((everywhere_labels hg htree).of_subtreeOn? hsubtree)

/-- An exchange below a node is one of the part there too. -/
lemma IsBounded.replace (ht : IsBounded g most p t) (hz : z.Everywhere fun u => u.label ∈ labels g)
    (hap : a = p ∨ ∃ n, a = p.child n) (hx : t.subtreeAt? a = some x)
    (hreplace : t.replaceAt? a z = some t') : IsBounded g most p t' := by
  obtain ⟨rest, hrest⟩ : ∃ rest, a.path = p.path ++ rest := by
    rcases hap with rfl | ⟨n, rfl⟩
    · exact ⟨[], (List.append_nil _).symm⟩
    · exact ⟨[n], rfl⟩
  refine ⟨(ht.labels_mem.replaceOn? (R := fun _ _ => True) (fun _ _ => trivial)
    (fun _ _ _ _ _ _ hlabel => hlabel) hz hx trivial hreplace).1, fun s' hs' => ?_⟩
  have hsize := Tree.size_replaceOn? hx hreplace
  rw [Tree.subtreeAt?, hrest, Tree.subtreeOn?_append] at hx
  obtain ⟨s, hs, hxs⟩ := Option.bind_eq_some_iff.1 hx
  rw [Tree.replaceAt?, hrest, Tree.replaceOn?_append hs] at hreplace
  obtain ⟨w, hw, hreplace⟩ := hreplace
  obtain rfl : w = s' :=
    Option.some.inj ((Tree.subtreeOn?_of_replaceOn? hreplace).symm.trans hs')
  have hpart := Tree.size_replaceOn? hxs hw
  have hle := ht.size_le s hs
  omega

/-- All trees of items are bounded, since the walk goes down over bounded parts only. -/
theorem isPreserved_fits (hg : g.IsWellFormed) (hfeet : g.HasLeafFeet) (bounds : g.SizeBounds) :
    IsPreserved g tokens (Fits g tokens)
      (fun _ => IsBounded g (sizeBelow bounds tokens.length)) where
  derived _ h := h.derived
  pass _ _ := fits_of_pass hg hfeet
  elementary name a t htree := by
    refine ⟨everywhere_labels hg htree, fun s hs => ?_⟩
    rcases Address.eq_root_or_child a with rfl | ⟨p, n, rfl⟩
    · rw [Tree.subtreeAt?_root, Option.some.injEq] at hs
      exact hs ▸ Nat.le_add_right _ _
    · have hnodes := bounds.size_le t (List.mem_map_of_mem (hg.tree?_eq_some_iff.1 htree))
      have hpos : 0 < (p.child n).path.length := by simp [Address.child]
      exact (size_le_sizeBelow bounds hnodes).trans
        ((Nat.le_mul_of_pos_left _ hpos).trans (Nat.le_add_left _ _))
  descend name a i gap j t us hshows hfits h := by
    rcases Address.eq_root_or_child a with rfl | ⟨p, n, rfl⟩
    · exact h
    · rw [base_child_left] at h
      refine ⟨h.labels_mem, fun s _ => ?_⟩
      obtain ⟨parent, hparent, hsize⟩ := exists_size_le bounds hg hshows hfits rfl
      have hle := h.size_le parent ((congrArg _ (base_child_left p n)).symm.trans hparent)
      have hlength : (p.child n).path.length = p.path.length + 1 := by simp [Address.child]
      rw [hlength, Nat.add_mul, Nat.one_mul]
      omega
  replace name p a b x z t t' hb hap ht hx _ hz hreplace :=
    ht.replace (everywhere_labels_of_derives hg hb hz) hap hx hreplace

/-- Above a node the walk is below of one that is not deeper. -/
lemma length_base_le (a : Address) (c : Corner) : (base a c).path.length ≤ a.path.length := by
  rcases eq_base_or_child a c with h | ⟨n, h⟩
  · rw [← h]
  · have hlength := congrArg (fun a : Address => a.path.length) h
    simp only [Address.child, List.length_append, List.length_singleton] at hlength
    omega

/-- The size of the trees that an item carries is bounded. -/
lemma size_le_of_carries (hg : g.IsWellFormed) (bounds : g.SizeBounds) {v : NodeVisit}
    (h : Carries g (Fits g tokens) (fun _ => IsBounded g (sizeBelow bounds tokens.length)) v t) :
    (t.Everywhere fun u => u.label ∈ labels g) ∧
      t.size ≤ (v.node.path.length + 1) * sizeBelow bounds tokens.length := by
  obtain ⟨c, us, hcorner, hshows, hfits, hbounded⟩ := h
  obtain ⟨s, hs, hsize⟩ := exists_size_le bounds hg hshows hfits hcorner
  have hle := hbounded.size_le s hs
  have hmul := Nat.mul_le_mul_right (sizeBelow bounds tokens.length) (length_base_le v.node c)
  refine ⟨hbounded.labels_mem, ?_⟩
  rw [Nat.add_mul, Nat.one_mul]
  omega

end Bounded

/-! ### Runs -/

/-- Items say finitely many things. -/
lemma finite_visits (hg : g.IsWellFormed) (tokens : List String) :
    {v | IsWithin g tokens v}.Finite := by
  have hplaces := Set.finite_le_nat tokens.length
  have hcorners : {corner | ∃ c : Corner, corner = c.text}.Finite := by
    refine (List.finite_toSet ([.leftAbove, .leftBelow, .rightBelow, .rightAbove].map
      Corner.text)).subset ?_
    rintro _ ⟨c, rfl⟩
    exact List.mem_map_of_mem (by cases c <;> simp)
  refine ((hg.finite_nodes.prod (hcorners.prod (hplaces.prod ((Gap.finite_le tokens.length).prod
    (hplaces.prod Set.finite_univ))))).image fun (node, corner, start, gap, stop, adjoined) =>
      NodeVisit.mk node.1 node.2 corner start gap stop adjoined).subset ?_
  intro v hv
  exact ⟨((v.tree, v.node), v.corner, v.start, v.gap, v.stop, v.adjoined),
    ⟨hv.node, hv.corner, hv.le.trans hv.stop_le, ⟨hv.gap_start, hv.gap_stop⟩, hv.stop_le,
      Set.mem_univ _⟩, rfl⟩

section Runs

variable {W : Type} [Weight W] {schema : Schema W}

/-- Bounds for a run on a grammar with bounds for sizes. -/
noncomputable def bounds (hg : g.IsWellFormed) (hfeet : g.HasLeafFeet)
    (hschema : Schema.treeEarley g tokens = .ok schema) (sizes : g.SizeBounds) : schema.Bounds :=
  have hpreserves := preserves_isCarrier hg hfeet hschema
    (isPreserved_fits hg hfeet sizes)
  have hvisits := finite_visits hg tokens
  have htrees := hvisits.biUnion fun v _ =>
    Tree.finite_size_le (labels g) ((v.node.path.length + 1) * sizeBelow sizes tokens.length)
  { Holds := IsCarrier g tokens (Fits g tokens)
      (fun _ => IsBounded g (sizeBelow sizes tokens.length))
    forms := (hvisits.image NodeVisit.form).toFinset
    trees := htrees.toFinset
    holds_axiom := hpreserves.of_axiom
    holds_fire := hpreserves.of_fire
    holds_merge := hpreserves.of_merge
    form_mem := by
      rintro x ⟨v, hform, hwithin, -⟩
      exact (Set.Finite.mem_toFinset _).2 ⟨v, hwithin, hform.symm⟩
    tree_mem := by
      rintro x ⟨v, -, hwithin, hcarries⟩ t ht
      exact (Set.Finite.mem_toFinset _).2
        (Set.mem_biUnion hwithin (size_le_of_carries hg sizes (hcarries t ht))) }

/-- If no elementary tree without anchors leads to itself through such trees, there are bounds. -/
lemma exists_run_of_acyclic (hg : g.IsWellFormed) (hfeet : g.HasLeafFeet)
    (hacyclic : ∀ t, ¬Relation.TransGen g.LeadsTo t t)
    (hschema : Schema.treeEarley g tokens = .ok schema) :
    ∃ fuel o, Deduction.run ⟨.accumulate, none⟩ schema fuel = .ok o := by
  obtain ⟨sizes⟩ := Grammar.nonempty_sizeBounds hg hfeet hacyclic
  exact Deduction.exists_run rfl rfl (bounds hg hfeet hschema sizes)

/-- For every grammar that is read from a file, whose feet are leaves and in which no elementary
tree without anchors leads to itself through such trees, and for every input: a run of parsing with
trees from the left that keeps all derivations ends. -/
theorem exists_run_treeEarley {file : String}
    (hread : GrammarFile.readTreeAdjoining file = .ok g) (hfeet : g.HasLeafFeet)
    (hacyclic : ∀ t, ¬Relation.TransGen g.LeadsTo t t) (tokens : List String) :
    ∃ schema : Schema W, Schema.treeEarley g tokens = .ok schema ∧
      ∃ fuel o, Deduction.run ⟨.accumulate, none⟩ schema fuel = .ok o := by
  have hg := GrammarFile.isWellFormed_of_read hread
  obtain ⟨schema, hschema⟩ : ∃ schema : Schema W, Schema.treeEarley g tokens = .ok schema :=
    ⟨_, rfl⟩
  exact ⟨schema, hschema, exists_run_of_acyclic hg hfeet hacyclic hschema⟩

end Runs

/-- A file in which a tree without anchors takes up another one, and an auxiliary tree with an
anchor adjoins into itself. -/
def repeatFile : String :=
  "N = \x7b\"S\", \"A\"\x7d\nT = \x7b\"a\"\x7d\nS = \"S\"\n" ++
    "I = \x7b\"α : (S A)\", \"γ : (A ε)\"\x7d\nA = \x7b\"β : (S a S*)\"\x7d\n"

/-- The grammar in that file. -/
def repeatGrammar : Grammar :=
  ⟨["S", "A"], ["a"], "S", [("α", .branch "S" [.leaf "A"]), ("γ", .branch "A" [.leaf "ε"])],
    [("β", .branch "S" [.leaf "a", .footLeaf "S"])]⟩

lemma read_repeatFile : GrammarFile.readTreeAdjoining repeatFile = .ok repeatGrammar := by
  decide +kernel

/-- The tree for the start symbol takes up the other initial tree, which takes up nothing. -/
lemma acyclic_repeatGrammar : ∀ t, ¬Relation.TransGen repeatGrammar.LeadsTo t t :=
  Grammar.not_transGen_leadsTo_of_rank (fun t => if t.label = "S" then 1 else 0) (by decide)

/-- For two letters the auxiliary tree adjoins at the root, with another one at its own root. -/
lemma generates_repeat : repeatGrammar.Generates repeatGrammar.MayStay ["a", "a"] := by
  have hletter : repeatGrammar.Derives repeatGrammar.MayStay (.leaf "a") (.leaf "a") :=
    .stay rfl (Or.inr (Or.inr List.mem_cons_self))
  have hfoot : repeatGrammar.Derives repeatGrammar.MayStay (.footLeaf "S") (.footLeaf "S") :=
    .stay rfl (Or.inl rfl)
  have honce : repeatGrammar.Derives repeatGrammar.MayStay
      (.branch "S" [.leaf "a", .footLeaf "S"]) (.branch "S" [.leaf "a", .footLeaf "S"]) :=
    .inner (List.cons_ne_nil _ _) (.cons hletter (.cons hfoot .nil))
  have htwice : repeatGrammar.Derives repeatGrammar.MayStay
      (.branch "S" [.leaf "a", .footLeaf "S"]) _ :=
    .adjoin (List.cons_ne_nil _ _) (.cons hletter (.cons hfoot .nil)) List.mem_cons_self rfl honce
  have hnothing : repeatGrammar.Derives repeatGrammar.MayStay (.leaf "ε") (.leaf "ε") :=
    .stay rfl (Or.inr (Or.inl rfl))
  have hfilled : repeatGrammar.Derives repeatGrammar.MayStay (.leaf "A")
      (.branch "A" [.leaf "ε"]) :=
    .substitute ⟨rfl, rfl, by decide⟩ (List.mem_cons_of_mem _ List.mem_cons_self) rfl
      (.inner (List.cons_ne_nil _ _) (.cons hnothing .nil))
  exact ⟨"α", .branch "S" [.leaf "A"], _, List.mem_cons_self, rfl,
    .adjoin (List.cons_ne_nil _ _) (.cons hfilled .nil) List.mem_cons_self rfl htwice, by decide⟩

/-- A run ends on two letters. -/
theorem exists_run_treeEarley_repeat :
    ∃ (schema : Schema Float) (fuel : ℕ) (o : Outcome Float),
      GrammarFile.readTreeAdjoining repeatFile = .ok repeatGrammar ∧ repeatGrammar.HasLeafFeet ∧
      (∀ t, ¬Relation.TransGen repeatGrammar.LeadsTo t t) ∧
      Schema.treeEarley repeatGrammar ["a", "a"] = .ok schema ∧
      Deduction.run ⟨.accumulate, none⟩ schema fuel = .ok o := by
  have hfeet : repeatGrammar.HasLeafFeet := by decide
  obtain ⟨schema, hschema, fuel, o, h⟩ :=
    exists_run_treeEarley (W := Float) read_repeatFile hfeet acyclic_repeatGrammar ["a", "a"]
  exact ⟨schema, fuel, o, read_repeatFile, hfeet, acyclic_repeatGrammar, hschema, h⟩

end TreeEarley

end DeductiveParsing
