/-
Trees filled into the leaves of a production.

* `Slot`: a symbol with the trees that may take the place of its leaf;
* `Slot.Takes`: the children for a slot;
* `Grammar.AreFilled`: trees without open leaves for declared nonterminals;
* `Grammar.mem_fill_above_iff`: the trees that arise when slots are filled one after the other;
* `Grammar.fill_ofProduction_exact`: every child is at its own place, and no choice is lost.
-/
import DeductiveParsing.Proofs.ContextFree.ParseTrees

namespace DeductiveParsing

namespace ContextFree

variable {g : Grammar} {p : Production} {a label : String} {t u : Tree} {before : List Tree}
  {symbols : List Symbol}

/-! ### Slots -/

/-- A symbol with its forest, which is of no account for a terminal. -/
abbrev Slot := Symbol × List Tree

namespace Slot

/-- The forests of the nonterminals in their order. -/
def forests (slots : List Slot) : List (List Tree) :=
  (slots.filter fun slot => slot.1.isNonterminal).map Prod.snd

/-- Whether a tree is a child for a slot: the leaf of its terminal, or a tree of the forest of its
nonterminal. -/
def Takes : Slot → Tree → Prop
  | (.terminal a, _), c => c = .leaf a
  | (.nonterminal _, forest), c => c ∈ forest

end Slot

namespace Grammar

variable {slots : List Slot}

/-! ### Filled trees -/

/-- Whether no tree has an open leaf for a declared nonterminal. -/
def AreFilled (g : Grammar) (ts : List Tree) : Prop :=
  ∀ t ∈ ts, ∀ b ∈ g.nonterminals, some b ∉ t.frontier

lemma AreFilled.snoc (h : g.AreFilled before) (ht : ∀ b ∈ g.nonterminals, some b ∉ t.frontier) :
    g.AreFilled (before ++ [t]) :=
  List.forall_mem_append.2 ⟨h, by simpa using ht⟩

lemma AreFilled.snoc_leaf (h : g.AreFilled before) (hs : g.Declares symbols)
    (ha : .terminal a ∈ symbols) : g.AreFilled (before ++ [.leaf a]) := by
  refine h.snoc fun b hb => ?_
  have hfrontier : (Tree.leaf a).frontier = [some a] := Tree.frontier_of_isOpen (hs.isOpen ha)
  rw [hfrontier, List.mem_singleton, Option.some.injEq]
  rintro rfl
  exact hs.not_mem ha hb

/-- Whether the trees in the forests of nonterminals have these as their labels, and no open leaves
for declared ones. -/
def AreFillers (g : Grammar) (slots : List Slot) : Prop :=
  ∀ slot ∈ slots, slot.1.isNonterminal = true →
    g.AreFilled slot.2 ∧ ∀ t ∈ slot.2, t.label = slot.1.name

/-! ### Filling -/

/-- Behind trees that are filled, a tree takes the place of the first leaf that is left. -/
lemma substituteLeftmost?_leaves (label : String)
    (hs : g.Declares (.nonterminal a :: symbols)) (hlabel : u.label = a)
    (hbefore : g.AreFilled before) :
    (Tree.above label (before ++ Tree.leaves (.nonterminal a :: symbols))).substituteLeftmost? u =
      some (.above label ((before ++ [u]) ++ Tree.leaves symbols)) := by
  subst hlabel
  rw [List.append_assoc]
  exact Tree.substituteLeftmost?_above
    (fun d hd => hbefore d hd _ (hs.mem List.mem_cons_self)) (hs.isOpen List.mem_cons_self)

/-- The trees that arise when slots are filled. The induction is on the slots; trees that have been
filled in stand before the leaves that are left. -/
lemma mem_fill_above_iff (hs : g.Declares (slots.map Prod.fst)) (hslots : g.AreFillers slots)
    (hbefore : g.AreFilled before) :
    t ∈ Forest.fill (.above label (before ++ Tree.leaves (slots.map Prod.fst)))
        (Slot.forests slots) ↔
      ∃ cs, List.Forall₂ Slot.Takes slots cs ∧ t = .above label (before ++ cs) := by
  induction slots generalizing before with
  | nil => simp [Slot.forests, Forest.mem_fill_nil]
  | cons slot slots ih =>
      obtain ⟨s, forest⟩ := slot
      obtain ⟨hslot, hrest⟩ := List.forall_mem_cons.1 hslots
      cases s with
      | terminal a =>
          have hleaf := ih hs.tail hrest (hbefore.snoc_leaf hs List.mem_cons_self)
          rw [List.append_assoc, List.singleton_append] at hleaf
          refine hleaf.trans ⟨?_, ?_⟩
          · rintro ⟨cs, hcs, rfl⟩
            exact ⟨.leaf a :: cs, .cons rfl hcs, by simp⟩
          · rintro ⟨_, hcs, rfl⟩
            cases hcs with
            | @cons _ c _ cs hc hcs =>
                obtain rfl : c = .leaf a := hc
                exact ⟨cs, hcs, by simp⟩
      | nonterminal a =>
          obtain ⟨hforest, hlabel⟩ := hslot rfl
          have hfirst := fun u (hu : u ∈ forest) =>
            substituteLeftmost?_leaves label hs (hlabel u hu) hbefore
          have hbehind := fun u (hu : u ∈ forest) =>
            ih hs.tail hrest (hbefore.snoc (hforest u hu))
          show t ∈ Forest.fill _ (forest :: Slot.forests slots) ↔ _
          rw [Forest.mem_fill_cons]
          constructor
          · rintro ⟨u, hu, v, hv, ht⟩
            obtain rfl := Option.some.inj ((hfirst u hu).symm.trans hv)
            obtain ⟨cs, hcs, rfl⟩ := (hbehind u hu).1 ht
            exact ⟨u :: cs, .cons hu hcs, by simp⟩
          · rintro ⟨_, hcs, rfl⟩
            cases hcs with
            | @cons _ u _ cs hu hcs =>
                exact ⟨u, hu, _, hfirst u hu, (hbehind u hu).2 ⟨cs, hcs, by simp⟩⟩

/-- The trees that arise when the leaves of a production are filled. -/
lemma mem_fill_slots_iff (hg : g.IsWellFormed) (hp : p ∈ g.productions)
    (hrhs : slots.map Prod.fst = p.rhs) (hslots : g.AreFillers slots) :
    t ∈ Forest.fill (.ofProduction p) (Slot.forests slots) ↔
      ∃ cs, List.Forall₂ Slot.Takes slots cs ∧ t = .above p.lhs cs := by
  have hnone : g.AreFilled [] := nofun
  rw [Tree.ofProduction_eq_above, ← hrhs]
  exact mem_fill_above_iff (hrhs ▸ hg.declares hp) hslots hnone

/-- In a grammar that has been read, the leaves of a production that is not empty are filled with
trees for its nonterminals, none of which has a leaf with the name of a declared one. There arise
the trees over the left-hand side that have a tree of its own forest as the child for every
nonterminal and its leaf for every terminal, and each of them once. -/
theorem fill_ofProduction_exact {file : String} (h : GrammarFile.readContextFree file = .ok g)
    (hp : p ∈ g.productions) (hne : p.rhs ≠ []) (slots : List Slot)
    (hrhs : slots.map Prod.fst = p.rhs)
    (hslots : ∀ slot ∈ slots, slot.1.isNonterminal = true →
      ∀ u ∈ slot.2, u.label = slot.1.name ∧ ∀ b ∈ g.nonterminals, b ∉ u.leafLabels) :
    (Forest.fill (.ofProduction p) (Slot.forests slots)).Nodup ∧
      ∀ t, t ∈ Forest.fill (.ofProduction p) (Slot.forests slots) ↔
        ∃ cs, List.Forall₂ Slot.Takes slots cs ∧ t = .branch p.lhs cs := by
  have hfillers : g.AreFillers slots := fun slot hslot hnonterminal =>
    ⟨fun u hu b hb hopen => (hslots slot hslot hnonterminal u hu).2 b hb
      (Tree.mem_leafLabels_of_mem_frontier hopen),
      fun u hu => (hslots slot hslot hnonterminal u hu).1⟩
  refine ⟨Choice.nodup_distinct _, fun t => ?_⟩
  rw [mem_fill_slots_iff (GrammarFile.isWellFormed_of_readContextFree h) hp hrhs hfillers]
  -- there are children, as many as there are slots
  refine exists_congr fun cs => and_congr_right fun hcs => ?_
  have hcs' : cs ≠ [] := by
    rintro rfl
    obtain rfl : slots = [] := List.forall₂_nil_right_iff.1 hcs
    exact hne hrhs.symm
  rw [Tree.above_of_ne_nil _ hcs']

/-- A file in which a nonterminal stands on both sides of a terminal. -/
def twiceFile : String :=
  "N = \x7b\"S\", \"A\"\x7d\nT = \x7b\"a\", \"b\"\x7d\nS = \"S\"\n" ++
    "P = \x7b\"S -> A b A\", \"A -> a\", \"A -> ε\"\x7d\n"

/-- The production with that nonterminal. -/
def twiceProduction : Production := ⟨"S", [.nonterminal "A", .terminal "b", .nonterminal "A"]⟩

/-- The grammar in that file. -/
def twiceGrammar : Grammar :=
  ⟨["S", "A"], ["a", "b"], "S", [twiceProduction, ⟨"A", [.terminal "a"]⟩, ⟨"A", []⟩]⟩

lemma read_twiceFile : GrammarFile.readContextFree twiceFile = .ok twiceGrammar := by decide +kernel

/-- When both leaves for one nonterminal are filled, the first one with either of two trees, every
tree stays at its place. -/
theorem fill_ofProduction_exact_twice :
    GrammarFile.readContextFree twiceFile = .ok twiceGrammar ∧
      ∀ t, t ∈ Forest.fill (.ofProduction twiceProduction)
          [[.branch "A" [.leaf "a"], .branch "A" [.leaf epsilon]], [.branch "A" [.leaf "a"]]] ↔
        t = .branch "S" [.branch "A" [.leaf "a"], .leaf "b", .branch "A" [.leaf "a"]] ∨
          t = .branch "S" [.branch "A" [.leaf epsilon], .leaf "b", .branch "A" [.leaf "a"]] := by
  have hexact := (fill_ofProduction_exact read_twiceFile (p := twiceProduction) List.mem_cons_self
    (by decide)
    [(.nonterminal "A", [.branch "A" [.leaf "a"], .branch "A" [.leaf epsilon]]),
      (.terminal "b", []), (.nonterminal "A", [.branch "A" [.leaf "a"]])]
    rfl (by decide)).2
  refine ⟨read_twiceFile, fun t => (hexact t).trans ?_⟩
  simp [List.forall₂_cons_left_iff, Slot.Takes, or_and_right, exists_or, twiceProduction]

end Grammar

end ContextFree

end DeductiveParsing
