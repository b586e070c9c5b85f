/-
Names and feet in the grammars that are read, and what an adjunction keeps.

* `Tree.HasFoot`: the only foot of a tree, which has the label of the root;
* `Tree.HasFoot.exists_adjoinAt?`: an adjunction keeps all leaves but those at the foot or below;
* `GrammarFile.names_and_feet_of_read`: what holds of every grammar that is read;
* `GrammarFile.exists_leaf_lost`: a foot that is not a leaf loses what stands below.
-/
import DeductiveParsing.Proofs.GrammarFile.TreeAdjoining
import DeductiveParsing.Proofs.Tree.Sites

namespace DeductiveParsing

namespace Tree

variable {t u v foot : Tree} {a f : Address}

/-- Whether `foot`, the node at `f`, is the only foot of a tree, and has the label of the root. -/
structure HasFoot (t : Tree) (f : Address) (foot : Tree) : Prop where
  subtreeAt?_eq : t.subtreeAt? f = some foot
  isFoot : foot.foot = true
  eq : ∀ b u, t.subtreeAt? b = some u → u.foot = true → b = f
  label_eq : foot.label = t.label

/-- The feet are the nodes with the mark. -/
lemma feet_eq_map (t : Tree) :
    GrammarFile.feet t = (t.nodes.filter fun node => node.2.foot).map Prod.snd := by
  rw [GrammarFile.feet, List.filter_map]
  rfl

lemma not_foot_of_feet (h : GrammarFile.feet t = []) (hu : t.subtreeAt? a = some u) :
    u.foot = false := by
  refine Bool.eq_false_of_not_eq_true fun hfoot => ?_
  rw [feet_eq_map, List.map_eq_nil_iff, List.filter_eq_nil_iff] at h
  exact h (a, u) (mem_nodes.2 hu) hfoot

lemma exists_hasFoot (h : GrammarFile.feet t = [foot]) (hlabel : foot.label = t.label) :
    ∃ f, t.HasFoot f foot := by
  rw [feet_eq_map, List.map_eq_singleton_iff] at h
  obtain ⟨⟨f, foot⟩, hnodes, rfl⟩ := h
  have hmem : ∀ b u, (b, u) ∈ t.nodes.filter (fun node => node.2.foot) ↔
      t.subtreeAt? b = some u ∧ u.foot = true := fun b u => by rw [List.mem_filter, mem_nodes]
  rw [hnodes] at hmem
  obtain ⟨hf, hfoot⟩ := (hmem f foot).1 (List.mem_singleton_self _)
  refine ⟨f, hf, hfoot, fun b u hu hmark => ?_, hlabel⟩
  exact congrArg Prod.fst (List.mem_singleton.1 ((hmem b u).2 ⟨hu, hmark⟩))

namespace HasFoot

variable {β : Tree} (h : β.HasFoot f foot)
include h

lemma footAddress?_eq : β.footAddress? = some f := by
  obtain ⟨b, hb⟩ := exists_footAddress?_iff.2 ⟨f, foot, h.subtreeAt?_eq, h.isFoot⟩
  obtain ⟨u, hu, hfoot⟩ := exists_of_find? hb
  rw [hb, h.eq b u hu hfoot]

/-- A foot that is a leaf is no more than its label. -/
lemma leafLabels_eq (hleaf : foot.children = []) : foot.leafLabels = [β.label] := by
  rw [leafLabels_of_leaf hleaf, h.label_eq]

/-- An adjunction at a node with the label of the root keeps all leaves of both trees but those at
the foot or below. -/
lemma exists_adjoinAt? (hv : t.subtreeAt? a = some v) (hlabel : v.label = β.label) :
    ∃ t', t.adjoinAt? a β = some t' ∧
      t'.leafLabels = t.leafLabelsLeftOf a.path ++ β.leafLabelsLeftOf f.path ++ v.leafLabels ++
        β.leafLabelsRightOf f.path ++ t.leafLabelsRightOf a.path ∧
      t.leafLabels = t.leafLabelsLeftOf a.path ++ v.leafLabels ++ t.leafLabelsRightOf a.path ∧
      β.leafLabels = β.leafLabelsLeftOf f.path ++ foot.leafLabels ++
        β.leafLabelsRightOf f.path := by
  obtain ⟨t', ht'⟩ := exists_adjoinAt?_iff.2
    ⟨⟨v, hv, hlabel⟩, f, foot, h.subtreeAt?_eq, h.isFoot⟩
  exact ⟨t', ht', leafLabels_adjoinAt?_of_footAddress? hv h.footAddress?_eq ht',
    leafLabels_eq_of_subtreeOn? hv, leafLabels_eq_of_subtreeOn? h.subtreeAt?_eq⟩

end HasFoot

end Tree

namespace GrammarFile

open TreeAdjoining

/-- In every grammar that is read, no name occurs twice among the trees of both sections, initial
trees have no feet, and every auxiliary tree has one, with the label of its root. It can be adjoined
at every node with that label, and all leaves stay but those of the auxiliary tree at the foot or
below, which are the foot alone if it is a leaf. -/
theorem names_and_feet_of_read {file : String} {g : Grammar} (h : readTreeAdjoining file = .ok g) :
    (∃ sections initial auxiliary, readSections ['N', 'T', 'S', 'I', 'A'] file = .ok sections ∧
      HasEntries sections initial auxiliary g) ∧
    (∀ named ∈ g.initial, ∀ a u, named.2.subtreeAt? a = some u → u.foot = false) ∧
    ∀ named ∈ g.auxiliary, ∃ f foot, named.2.HasFoot f foot ∧
      (foot.children = [] → foot.leafLabels = [named.2.label]) ∧
      ∀ (t : Tree) a v, t.subtreeAt? a = some v → v.label = named.2.label →
        ∃ t', t.adjoinAt? a named.2 = some t' ∧
          t'.leafLabels = t.leafLabelsLeftOf a.path ++ named.2.leafLabelsLeftOf f.path ++
            v.leafLabels ++ named.2.leafLabelsRightOf f.path ++ t.leafLabelsRightOf a.path ∧
          t.leafLabels =
            t.leafLabelsLeftOf a.path ++ v.leafLabels ++ t.leafLabelsRightOf a.path ∧
          named.2.leafLabels = named.2.leafLabelsLeftOf f.path ++ foot.leafLabels ++
            named.2.leafLabelsRightOf f.path := by
  obtain ⟨sections, initial, auxiliary, hsections, -, hentries⟩ := exists_hasEntries_of_read h
  have hg := isWellFormed_of_read h
  refine ⟨⟨sections, initial, auxiliary, hsections, hentries⟩,
    fun named hnamed a u hu => Tree.not_foot_of_feet (hg.feet_initial named hnamed) hu,
    fun named hnamed => ?_⟩
  obtain ⟨foot, hfeet, hlabel⟩ := hg.feet_auxiliary named hnamed
  obtain ⟨f, hfoot⟩ := Tree.exists_hasFoot hfeet hlabel
  exact ⟨f, foot, hfoot, hfoot.leafLabels_eq, fun t a v hv hv' => hfoot.exists_adjoinAt? hv hv'⟩

/-- A file with two auxiliary trees. The foot of the first one has a child. -/
def footFile : String :=
  "N = \x7b\"S\"\x7d\nT = \x7b\"a\", \"b\", \"c\"\x7d\nS = \"S\"\nI = \x7b\"α : (S c)\"\x7d\n" ++
    "A = \x7b\"β : (S b (S* a))\", \"γ : (S a S*)\"\x7d\n"

/-- The initial tree in that file. -/
def footTarget : Tree := .branch "S" [.leaf "c"]

/-- The auxiliary tree whose foot has a child. -/
def innerFootTree : Tree := .branch "S" [.leaf "b", ⟨"S", true, [.leaf "a"]⟩]

/-- The auxiliary tree whose foot is a leaf. -/
def leafFootTree : Tree := .branch "S" [.leaf "a", .footLeaf "S"]

/-- The grammar in that file. -/
def footGrammar : Grammar :=
  ⟨["S"], ["a", "b", "c"], "S", [("α", footTarget)],
    [("β", innerFootTree), ("γ", leafFootTree)]⟩

lemma read_footFile : readTreeAdjoining footFile = .ok footGrammar := by decide +kernel

/-- An auxiliary tree whose foot is a leaf, adjoined at the root of the initial tree. -/
theorem names_and_feet_of_read_footFile :
    readTreeAdjoining footFile = .ok footGrammar ∧
      (∀ a u, footTarget.subtreeAt? a = some u → u.foot = false) ∧
      ∃ f foot, leafFootTree.HasFoot f foot ∧ foot.leafLabels = ["S"] ∧
        ∃ t', footTarget.adjoinAt? .root leafFootTree = some t' ∧ t'.leafLabels = ["a", "c"] := by
  obtain ⟨-, hinitial, hauxiliary⟩ := names_and_feet_of_read read_footFile
  obtain ⟨f, foot, hfoot, hleaf, hadjoin⟩ := hauxiliary ("γ", leafFootTree) (by decide)
  have hf : f = ⟨[2]⟩ := Option.some.inj (hfoot.footAddress?_eq.symm.trans (by decide))
  subst hf
  have hchildren : foot = .footLeaf "S" :=
    Option.some.inj (hfoot.subtreeAt?_eq.symm.trans (by decide))
  obtain ⟨t', ht', hleaves, -⟩ := hadjoin footTarget .root footTarget rfl rfl
  exact ⟨read_footFile, hinitial ("α", footTarget) (by decide), _, foot, hfoot,
    hleaf (hchildren ▸ rfl), t', ht', hleaves.trans (by decide)⟩

/-- The foot of an auxiliary tree that is read need not be a leaf, and an adjunction drops what
stands below. -/
theorem exists_leaf_lost :
    readTreeAdjoining footFile = .ok footGrammar ∧ ("β", innerFootTree) ∈ footGrammar.auxiliary ∧
      (∃ f foot, innerFootTree.HasFoot f foot ∧ foot.children ≠ []) ∧
      footTarget.label = innerFootTree.label ∧ "a" ∈ innerFootTree.leafLabels ∧
      ∃ t', footTarget.adjoinAt? .root innerFootTree = some t' ∧ "a" ∉ t'.leafLabels := by
  have hfeet : feet innerFootTree = [⟨"S", true, [.leaf "a"]⟩] := by decide
  obtain ⟨f, hfoot⟩ := Tree.exists_hasFoot hfeet rfl
  exact ⟨read_footFile, by decide, ⟨f, _, hfoot, List.cons_ne_nil _ _⟩, rfl, by decide, _, rfl,
    by decide⟩

end GrammarFile

end DeductiveParsing
