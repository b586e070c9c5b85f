/-
What the reader of tree-adjoining grammars makes sure of.

* `Tree.IsLabelled`: only feet may lack a label, which holds of every tree that is read;
* `TreeAdjoining.perm_ofNamed`: sorting keeps the trees if no name occurs twice;
* `TreeAdjoining.ofNamed_eq_self`: trees in the order of their names stay in their order;
* `Grammar.IsWellFormed`: no name occurs twice, initial trees have no feet and auxiliary trees have
  one, with the label of the root;
* `IsReadFrom`, `HasEntries`: what a grammar that is read owes to the sections of its file;
* `isWellFormed_of_read`: every grammar that is read is well-formed.
-/
import Mathlib.Data.String.Basic
import DeductiveParsing.GrammarFile.Reader
import DeductiveParsing.Proofs.Deduction.Folds
import DeductiveParsing.Proofs.GrammarFile.ContextFree
import DeductiveParsing.Proofs.Tree.Text

namespace DeductiveParsing

open Deduction (bind_eq_ok exists_of_mem_mapM)

/-! ### Labels -/

namespace Tree

/-- Whether all nodes that are no feet have a label. -/
def IsLabelled (t : Tree) : Prop := ∀ u ∈ t.nodes.map Prod.snd, u.foot = false → u.label ≠ ""

lemma isLabelled_iff {t : Tree} :
    t.IsLabelled ↔ (t.foot = false → t.label ≠ "") ∧ ∀ c ∈ t.children, c.IsLabelled := by
  rw [IsLabelled, map_snd_nodes, List.forall_mem_cons, List.forall_mem_flatMap]
  rfl

/-- Every tree that is read has labels. -/
lemma isLabelled_of_read {s : String} {t : Tree} (h : Tree.read s = .ok t) : t.IsLabelled := by
  refine everywhere_of_read h fun word hword _ children hfoot hempty => hword.1 ?_
  obtain ⟨hfoot, hempty⟩ : (nodeOf word).foot = false ∧ (nodeOf word).label = "" := ⟨hfoot, hempty⟩
  have hlabel := markedLabel_nodeOf word
  rw [hfoot, hempty] at hlabel
  exact hlabel.symm

end Tree

/-! ### Names and their order -/

namespace TreeAdjoining

variable {name : String} {tree : Tree} {trees : NamedTrees}

lemma perm_insertNamed (h : name ∉ trees.map Prod.fst) :
    (insertNamed name tree trees).Perm ((name, tree) :: trees) := by
  induction trees with
  | nil => exact .refl _
  | cons named trees ih =>
      obtain ⟨n, t⟩ := named
      rw [List.map_cons, List.mem_cons, not_or] at h
      rw [insertNamed]
      split
      · exact .refl _
      · rw [if_neg h.1]
        exact ((ih h.2).cons _).trans (.swap _ _ _)

/-- Sorting keeps the trees if no name occurs twice. -/
lemma perm_ofNamed (h : (trees.map Prod.fst).Nodup) : (ofNamed trees).Perm trees := by
  have hfold : ∀ (behind sorted : NamedTrees), ((sorted ++ behind).map Prod.fst).Nodup →
      (behind.foldl (fun sorted named => insertNamed named.1 named.2 sorted) sorted).Perm
        (sorted ++ behind) := by
    intro behind
    induction behind with
    | nil => simp
    | cons named behind ih =>
        intro sorted hnodup
        obtain ⟨n, t⟩ := named
        have hmiddle : (sorted ++ (n, t) :: behind).Perm ((n, t) :: (sorted ++ behind)) :=
          List.perm_middle
        have hnodup' := (hmiddle.map Prod.fst).nodup_iff.1 hnodup
        rw [List.map_cons, List.nodup_cons, List.map_append, List.mem_append, not_or] at hnodup'
        have hinsert : (insertNamed n t sorted ++ behind).Perm ((n, t) :: (sorted ++ behind)) :=
          (perm_insertNamed hnodup'.1.1).append_right behind
        rw [List.foldl_cons]
        refine (ih _ ?_).trans (hinsert.trans hmiddle.symm)
        exact ((hinsert.trans hmiddle.symm).map Prod.fst).nodup_iff.2 hnodup
  exact hfold trees [] h

/-- Whether trees are in the order of their names. -/
def IsSorted (trees : NamedTrees) : Prop := trees.Pairwise fun a b => a.1 < b.1

lemma mem_insertNamed {named : String × Tree} (h : named ∈ insertNamed name tree trees) :
    named = (name, tree) ∨ named ∈ trees := by
  induction trees with
  | nil => exact Or.inl (List.mem_singleton.1 h)
  | cons first trees ih =>
      obtain ⟨n, t⟩ := first
      rw [insertNamed] at h
      split at h
      · exact List.mem_cons.1 h
      · split at h
        · exact (List.mem_cons.1 h).imp_right (List.mem_cons_of_mem _)
        · rcases List.mem_cons.1 h with rfl | h
          · exact Or.inr List.mem_cons_self
          · exact (ih h).imp_right (List.mem_cons_of_mem _)

lemma IsSorted.insertNamed (h : IsSorted trees) (name : String) (tree : Tree) :
    IsSorted (insertNamed name tree trees) := by
  induction trees with
  | nil => exact List.pairwise_singleton _ _
  | cons first trees ih =>
      obtain ⟨n, t⟩ := first
      obtain ⟨hfirst, htrees⟩ := List.pairwise_cons.1 h
      rw [TreeAdjoining.insertNamed]
      split
      next hlt =>
        refine List.pairwise_cons.2 ⟨List.forall_mem_cons.2 ⟨hlt, fun named hnamed => ?_⟩, h⟩
        exact lt_trans hlt (hfirst named hnamed)
      next hnlt =>
        split
        next heq => exact List.pairwise_cons.2 ⟨heq ▸ hfirst, htrees⟩
        next hne =>
          have hlt : n < name := lt_of_le_of_ne (not_lt.1 hnlt) (Ne.symm hne)
          refine List.pairwise_cons.2 ⟨fun named hnamed => ?_, ih htrees⟩
          rcases mem_insertNamed hnamed with rfl | hnamed
          · exact hlt
          · exact hfirst named hnamed

lemma isSorted_ofNamed (trees : List (String × Tree)) : IsSorted (ofNamed trees) := by
  rw [ofNamed]
  exact List.foldlRecOn (motive := IsSorted) trees _ List.Pairwise.nil
    fun sorted h named _ => h.insertNamed named.1 named.2

/-- Trees in the order of their names stay in their order. -/
lemma ofNamed_eq_self (h : IsSorted trees) : ofNamed trees = trees := by
  have hnodup : (trees.map Prod.fst).Nodup :=
    List.pairwise_map.2 (h.imp fun hlt => ne_of_lt hlt)
  refine List.Perm.eq_of_pairwise (fun a b _ _ hab hba => ?_) (isSorted_ofNamed trees) h
    (perm_ofNamed hnodup)
  exact absurd hab (lt_asymm hba)

/-- A tree is found under its name if no name occurs twice. -/
lemma lookup_eq_some_of_mem (h : (trees.map Prod.fst).Nodup) (hmem : (name, tree) ∈ trees) :
    trees.lookup name = some tree := by
  obtain ⟨before, behind, rfl⟩ := List.append_of_mem hmem
  rw [List.lookup_eq_some_iff]
  refine ⟨before, behind, rfl, fun named hnamed => ?_⟩
  rw [List.map_append, List.nodup_append] at h
  simpa using (h.2.2 named.1 (List.mem_map_of_mem hnamed) name (by simp)).symm

lemma mem_of_lookup_eq_some {α β : Type} [BEq α] [LawfulBEq α] {entries : List (α × β)} {key : α}
    {value : β} (h : entries.lookup key = some value) : (key, value) ∈ entries := by
  obtain ⟨before, behind, rfl, -⟩ := List.lookup_eq_some_iff.1 h
  simp

lemma lookup_eq_none_of_not_mem (h : name ∉ trees.map Prod.fst) : trees.lookup name = none := by
  rw [List.lookup_eq_none_iff]
  intro named hnamed
  simpa using fun heq : name = named.1 => h (heq ▸ List.mem_map_of_mem hnamed)

/-! ### Grammars -/

namespace Grammar

variable {g : Grammar}

/-- What the reader makes sure of: no name occurs twice, initial trees have no feet, auxiliary trees
have one, with the label of the root, and only feet may lack a label. -/
structure IsWellFormed (g : Grammar) : Prop where
  nodup_names : (g.trees.map Prod.fst).Nodup
  feet_initial : ∀ named ∈ g.initial, GrammarFile.feet named.2 = []
  feet_auxiliary : ∀ named ∈ g.auxiliary,
    ∃ foot, GrammarFile.feet named.2 = [foot] ∧ foot.label = named.2.label
  isLabelled : ∀ named ∈ g.trees, named.2.IsLabelled

lemma tree?_eq_lookup (g : Grammar) (name : String) : g.tree? name = g.trees.lookup name := by
  rw [tree?, trees, List.lookup_append]
  cases g.initial.lookup name <;> rfl

lemma mem_trees_of_tree? (h : g.tree? name = some tree) : (name, tree) ∈ g.trees :=
  mem_of_lookup_eq_some (tree?_eq_lookup g name ▸ h)

namespace IsWellFormed

lemma tree?_of_initial (h : g.IsWellFormed) (hmem : (name, tree) ∈ g.initial) :
    g.initial.lookup name = some tree ∧ g.tree? name = some tree := by
  have hnodup := h.nodup_names
  rw [trees, List.map_append] at hnodup
  have hlookup := lookup_eq_some_of_mem hnodup.of_append_left hmem
  exact ⟨hlookup, by rw [tree?, hlookup]⟩

lemma tree?_of_auxiliary (h : g.IsWellFormed) (hmem : (name, tree) ∈ g.auxiliary) :
    g.auxiliary.lookup name = some tree ∧ g.tree? name = some tree := by
  have hnodup := h.nodup_names
  rw [trees, List.map_append] at hnodup
  have hlookup := lookup_eq_some_of_mem hnodup.of_append_right hmem
  have hnone : g.initial.lookup name = none := by
    refine lookup_eq_none_of_not_mem fun hinitial => ?_
    exact List.disjoint_of_nodup_append hnodup hinitial (List.mem_map_of_mem hmem)
  exact ⟨hlookup, by rw [tree?, hnone, hlookup]⟩

lemma tree?_eq_some_iff (h : g.IsWellFormed) :
    g.tree? name = some tree ↔ (name, tree) ∈ g.trees := by
  refine ⟨mem_trees_of_tree?, fun hmem => ?_⟩
  rcases List.mem_append.1 hmem with hmem | hmem
  · exact (h.tree?_of_initial hmem).2
  · exact (h.tree?_of_auxiliary hmem).2

end IsWellFormed

end Grammar

end TreeAdjoining

namespace GrammarFile

variable {kind : TreeKind} {s : Section} {known all : List (String × Tree)}

lemma lookup_of_need {sections : Sections} {name : Char} (h : sections.need name = .ok s) :
    sections.lookup name = some s := by
  rw [Sections.need] at h
  split at h
  next s' hlookup => exact Except.ok.inj h ▸ hlookup
  · cases h

lemma isLabelled_of_readNamedTree {line : ℕ} {cs : List Char} {named : String × Tree}
    (h : readNamedTree line cs = .ok named) : named.2.IsLabelled := by
  rw [readNamedTree] at h
  split at h
  · cases h
  · split at h
    · rename_i tree htree
      exact Except.ok.inj h ▸ Tree.isLabelled_of_read htree
    · cases h

/-- A tree is read behind others with a new name and with feet that suit its kind. -/
lemma eq_append_of_readTree {line : ℕ} {cs : List Char}
    (h : readTree kind line known cs = .ok all) :
    ∃ named, all = known ++ [named] ∧ named.1 ∉ known.map Prod.fst ∧
      checkFeet kind named.2 = none ∧ readNamedTree line cs = .ok named := by
  obtain ⟨⟨name, tree⟩, hnamed, h⟩ := bind_eq_ok.1 h
  dsimp only at h
  cases hfeet : checkFeet kind tree with
  | some fault =>
      rw [hfeet] at h
      cases h
  | none =>
      rw [hfeet] at h
      by_cases hknown : (known.lookup name).isSome
      · simp only [hknown, if_pos] at h
        cases h
      · simp only [hknown, if_neg, Bool.false_eq_true, not_false_eq_true] at h
        refine ⟨(name, tree), (Except.ok.inj h).symm, fun hmem => hknown ?_, hfeet, hnamed⟩
        obtain ⟨other, hother, hname⟩ := List.mem_map.1 hmem
        rw [Option.isSome_iff_ne_none, ne_eq, List.lookup_eq_none_iff]
        intro hnone
        simpa [hname] using hnone other hother

/-- The trees of a section are read behind others, with names of their own. -/
lemma eq_append_of_readTrees (h : readTrees kind s known = .ok all)
    (hknown : (known.map Prod.fst).Nodup) :
    ∃ new, all = known ++ new ∧ s.entries.mapM (readNamedTree s.line) = .ok new ∧
      (all.map Prod.fst).Nodup ∧ ∀ named ∈ new, checkFeet kind named.2 = none := by
  obtain ⟨line, entries⟩ := s
  rw [readTrees] at h
  dsimp only at h ⊢
  induction entries generalizing known with
  | nil =>
      obtain rfl := Except.ok.inj h
      exact ⟨[], (List.append_nil _).symm, rfl, hknown, by simp⟩
  | cons cs entries ih =>
      rw [List.foldlM_cons] at h
      obtain ⟨_, hnext, h⟩ := bind_eq_ok.1 h
      obtain ⟨named, rfl, hname, hfeet, hnamed⟩ := eq_append_of_readTree hnext
      have hknown' : ((known ++ [named]).map Prod.fst).Nodup := by
        rw [List.map_append]
        exact hknown.append (List.nodup_singleton _) (List.disjoint_singleton.2 hname)
      obtain ⟨new, rfl, hnew, hnodup, hcheck⟩ := ih hknown' h
      refine ⟨named :: new, List.append_assoc _ _ _, ?_, hnodup,
        List.forall_mem_cons.2 ⟨hfeet, hcheck⟩⟩
      rw [List.mapM_cons, hnamed]
      exact bind_eq_ok.2 ⟨named, rfl, bind_eq_ok.2 ⟨new, hnew, rfl⟩⟩

lemma feet_eq_nil_of_checkFeet {t : Tree} (h : checkFeet .initial t = none) : feet t = [] := by
  rw [checkFeet.eq_def] at h
  split at h <;> simp_all

lemma feet_eq_singleton_of_checkFeet {t : Tree} (h : checkFeet .auxiliary t = none) :
    ∃ foot, feet t = [foot] ∧ foot.label = t.label := by
  rw [checkFeet.eq_def] at h
  split at h
  · simp_all
  · simp_all
  · rename_i foot _ hfoot
    exact ⟨foot, hfoot, by simpa using h⟩
  · simp_all

open TreeAdjoining

/-- What a grammar that is read owes to the sections of the file. -/
structure IsReadFrom (sections : Sections) (g : Grammar) : Prop where
  nonterminals : sections.names 'N' = .ok g.nonterminals
  terminals : sections.names 'T' = .ok g.terminals
  start : sections.start = .ok g.start
  nodup_names : (g.trees.map Prod.fst).Nodup
  isSorted : IsSorted g.initial ∧ IsSorted g.auxiliary
  checkFeet_initial : ∀ named ∈ g.initial, checkFeet .initial named.2 = none
  checkFeet_auxiliary : ∀ named ∈ g.auxiliary, checkFeet .auxiliary named.2 = none
  exists_entry : ∀ named ∈ g.trees, ∃ s ∈ sections, ∃ cs ∈ s.2.entries,
    readNamedTree s.2.line cs = .ok named

/-- The trees of a section in the order of its entries. A section that is missing has none. -/
def Sections.namedTrees (sections : Sections) (name : Char) : Except Fault NamedTrees :=
  let s := (sections.lookup name).getD ⟨0, []⟩
  s.entries.mapM (readNamedTree s.line)

lemma exists_entry_of_namedTrees {sections : Sections} {name : Char} {trees : NamedTrees}
    (h : sections.namedTrees name = .ok trees) : ∀ named ∈ trees, ∃ s ∈ sections,
      ∃ cs ∈ s.2.entries, readNamedTree s.2.line cs = .ok named := by
  intro named hnamed
  obtain ⟨cs, hcs, hread⟩ := exists_of_mem_mapM h named hnamed
  cases hlookup : sections.lookup name with
  | none =>
      rw [hlookup] at hcs
      exact absurd hcs List.not_mem_nil
  | some s =>
      rw [hlookup] at hcs hread
      exact ⟨(name, s), mem_of_lookup_eq_some hlookup, cs, hcs, hread⟩

/-- Whether the trees of a grammar are those of all entries in the file, none of which has the name
of another one. -/
structure HasEntries (sections : Sections) (initial auxiliary : NamedTrees) (g : Grammar) :
    Prop where
  namedTrees_initial : sections.namedTrees 'I' = .ok initial
  namedTrees_auxiliary : sections.namedTrees 'A' = .ok auxiliary
  nodup_names : ((initial ++ auxiliary).map Prod.fst).Nodup
  perm_initial : g.initial.Perm initial
  perm_auxiliary : g.auxiliary.Perm auxiliary

/-- Every grammar that is read is read from the sections of its file, and has the trees of all
entries there. -/
theorem exists_hasEntries_of_read {file : String} {g : Grammar}
    (h : readTreeAdjoining file = .ok g) :
    ∃ sections initial auxiliary, readSections ['N', 'T', 'S', 'I', 'A'] file = .ok sections ∧
      IsReadFrom sections g ∧ HasEntries sections initial auxiliary g := by
  obtain ⟨sections, hsections, h⟩ := bind_eq_ok.1 h
  obtain ⟨nonterminals, hnonterminals, h⟩ := bind_eq_ok.1 h
  obtain ⟨terminals, hterminals, h⟩ := bind_eq_ok.1 h
  obtain ⟨start, hstart, h⟩ := bind_eq_ok.1 h
  obtain ⟨i, hi, h⟩ := bind_eq_ok.1 h
  obtain ⟨initial, hinitial, h⟩ := bind_eq_ok.1 h
  obtain ⟨all, hall, h⟩ := bind_eq_ok.1 h
  obtain rfl := Except.ok.inj h
  obtain ⟨initials, hinitials, hread, hnodup, hcheck⟩ :=
    eq_append_of_readTrees hinitial List.nodup_nil
  obtain rfl : initial = initials := hinitials
  obtain ⟨auxiliary, rfl, hread', hnodup', hcheck'⟩ := eq_append_of_readTrees hall hnodup
  have hreadI : sections.namedTrees 'I' = .ok initial := by
    rw [Sections.namedTrees, lookup_of_need hi]
    exact hread
  rw [List.drop_left]
  -- sorting by names keeps the trees of each section
  have hperm := perm_ofNamed hnodup
  have hperm' : (ofNamed auxiliary).Perm auxiliary := by
    rw [List.map_append] at hnodup'
    exact perm_ofNamed hnodup'.of_append_right
  refine ⟨sections, initial, auxiliary, hsections, ⟨hnonterminals, hterminals, hstart,
    ((hperm.append hperm').map Prod.fst).nodup_iff.2 hnodup', ⟨isSorted_ofNamed _,
    isSorted_ofNamed _⟩, fun named hnamed => hcheck named (hperm.subset hnamed),
    fun named hnamed => hcheck' named (hperm'.subset hnamed), fun named hnamed => ?_⟩,
    ⟨hreadI, hread', hnodup', hperm, hperm'⟩⟩
  rcases List.mem_append.1 hnamed with hnamed | hnamed
  · exact exists_entry_of_namedTrees hreadI named (hperm.subset hnamed)
  · exact exists_entry_of_namedTrees hread' named (hperm'.subset hnamed)

theorem exists_isReadFrom_of_read {file : String} {g : Grammar}
    (h : readTreeAdjoining file = .ok g) :
    ∃ sections, readSections ['N', 'T', 'S', 'I', 'A'] file = .ok sections ∧
      IsReadFrom sections g := by
  obtain ⟨sections, -, -, hsections, hread, -⟩ := exists_hasEntries_of_read h
  exact ⟨sections, hsections, hread⟩

/-- Every grammar that is read is well-formed. -/
theorem isWellFormed_of_read {file : String} {g : Grammar}
    (h : readTreeAdjoining file = .ok g) : g.IsWellFormed := by
  obtain ⟨sections, -, h⟩ := exists_isReadFrom_of_read h
  refine ⟨h.nodup_names, fun named hnamed => ?_, fun named hnamed => ?_, fun named hnamed => ?_⟩
  · exact feet_eq_nil_of_checkFeet (h.checkFeet_initial named hnamed)
  · exact feet_eq_singleton_of_checkFeet (h.checkFeet_auxiliary named hnamed)
  · obtain ⟨s, -, cs, -, hread⟩ := h.exists_entry named hnamed
    exact isLabelled_of_readNamedTree hread

end GrammarFile

end DeductiveParsing
