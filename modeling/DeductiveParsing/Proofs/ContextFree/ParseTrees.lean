/-
Parse trees of context-free grammars.

* `Grammar.IsParseTree`: a tree of rules over the start symbol that spells an input;
* `Grammar.Spells`: trees for symbols in a row, with the word that they spell;
* `Spells.frontier_eq`, `Spells.everywhere_isRuleNode`: such trees consist of rules, and their
  leaves are that word;
* `isParseTree_iff`: the parse trees are the trees that spell the input over a production of the
  start symbol;
* `Spells.exists_of_mem_nodes`: what is derived when one of the inner nodes is left unexpanded;
* `Grammar.IsAcyclic`: no nonterminal derives itself, so no tree repeats below its root over the
  same word.
-/
import DeductiveParsing.Proofs.ContextFree.Derivation
import DeductiveParsing.Proofs.GrammarFile.ContextFree
import DeductiveParsing.Proofs.Tree.Substitution

namespace DeductiveParsing

/-- A node over the given trees, or over the empty string if there are none. -/
def Tree.above (label : String) (children : List Tree) : Tree :=
  .branch label (if children.isEmpty then [.leaf epsilon] else children)

namespace Tree

variable {label : String} {cs : List Tree}

lemma above_nil (label : String) : above label [] = .branch label [.leaf epsilon] := rfl

lemma above_of_ne_nil (label : String) (h : cs ≠ []) : above label cs = .branch label cs := by
  rw [above, if_neg (by simpa using h)]

lemma children_above_ne_nil (label : String) (cs : List Tree) : (above label cs).children ≠ [] := by
  by_cases h : cs = []
  · simp [h, above_nil, branch]
  · simpa [above_of_ne_nil label h, branch] using h

/-- A child is one of the given trees or the leaf of the empty string. -/
lemma mem_children_above {c : Tree} (h : c ∈ (above label cs).children) :
    c ∈ cs ∨ (cs = [] ∧ c = .leaf epsilon) := by
  by_cases hcs : cs = []
  · refine Or.inr ⟨hcs, ?_⟩
    simpa [hcs, above_nil, branch] using h
  · rw [above_of_ne_nil label hcs] at h
    exact Or.inl h

lemma frontier_above (label : String) (cs : List Tree) :
    (above label cs).frontier = cs.flatMap frontier := by
  rw [frontier_of_children (children_above_ne_nil label cs)]
  by_cases h : cs = []
  · simp [h, above_nil, branch, leaf, frontier]
  · rw [above_of_ne_nil label h]
    rfl

/-- A tree takes the place of the leaf that has its label, if no open leaf before that has it. -/
lemma substituteLeftmost?_above {before behind : List Tree} {u : Tree}
    (hbefore : ∀ d ∈ before, some u.label ∉ d.frontier) (hopen : (leaf u.label).isOpen = true) :
    (above label (before ++ leaf u.label :: behind)).substituteLeftmost? u =
      some (above label (before ++ u :: behind)) := by
  rw [above_of_ne_nil _ (by simp), above_of_ne_nil _ (by simp)]
  exact substituteLeftmost?_child hbefore (substituteLeftmost?_leaf hopen rfl)

/-- The leaves of symbols. -/
def leaves (symbols : List Symbol) : List Tree := symbols.map fun s => leaf s.name

@[simp]
lemma leaves_nil : leaves [] = [] := rfl

@[simp]
lemma leaves_cons (s : Symbol) (symbols : List Symbol) :
    leaves (s :: symbols) = leaf s.name :: leaves symbols := rfl

@[simp]
lemma length_leaves (symbols : List Symbol) : (leaves symbols).length = symbols.length :=
  List.length_map _

@[simp]
lemma map_label_leaves (symbols : List Symbol) :
    (leaves symbols).map Tree.label = symbols.map Symbol.name := List.map_map

lemma everywhere_leaf {P : Tree → Prop} {a : String} (h : P (leaf a)) : (leaf a).Everywhere P :=
  everywhere_iff.2 ⟨h, fun _ hc => absurd hc List.not_mem_nil⟩

lemma everywhere_above {P : Tree → Prop} (h : P (above label cs))
    (hepsilon : (leaf epsilon).Everywhere P) (hcs : ∀ c ∈ cs, c.Everywhere P) :
    (above label cs).Everywhere P := by
  refine everywhere_iff.2 ⟨h, fun c hc => ?_⟩
  rcases mem_children_above hc with hc | ⟨-, rfl⟩
  · exact hcs c hc
  · exact hepsilon

/-- The tree of a production stands over the leaves of its symbols. -/
lemma ofProduction_eq_above (p : Production) : ofProduction p = above p.lhs (leaves p.rhs) := by
  rw [ofProduction, above, Production.isEmpty, Production.rhsNames, List.map_map, leaves,
    List.isEmpty_map]
  rfl

/-- The children in the tree of a production are leaves. -/
lemma children_eq_nil_of_mem_ofProduction {p : Production} {c : Tree}
    (hc : c ∈ (ofProduction p).children) : c.children = [] := by
  rw [ofProduction_eq_above] at hc
  rcases mem_children_above hc with hc | ⟨-, rfl⟩
  · obtain ⟨s, -, rfl⟩ := List.mem_map.1 hc
    rfl
  · rfl

end Tree

namespace ContextFree.Grammar

open Rewriting Relation

/-! ### Parse trees -/

/-- Whether a node stands for a symbol: a leaf for a terminal and an inner node for a nonterminal,
with the name of the symbol as its label. -/
def StandsFor (s : Symbol) (t : Tree) : Prop :=
  t.label = s.name ∧ (t.children = [] ↔ s.isTerminal = true)

/-- Whether a node is a leaf, or a rule with its children. The node of an empty rule stands over the
leaf of the empty string. -/
def IsRuleNode (g : Grammar) (t : Tree) : Prop :=
  t.foot = false ∧ (t.children ≠ [] → ∃ p ∈ g.productions, t.label = p.lhs ∧
    if p.rhs = [] then t.children = [.leaf epsilon] else List.Forall₂ StandsFor p.rhs t.children)

/-- Whether a tree is a parse tree of an input: the root is the start symbol, every inner node is a
rule with its children, and the leaves without those for the empty string are the input. -/
structure IsParseTree (g : Grammar) (tokens : List String) (t : Tree) : Prop where
  label_eq : t.label = g.start
  children_ne_nil : t.children ≠ []
  everywhere : t.Everywhere g.IsRuleNode
  frontier_eq : t.frontier = tokens.map some

/-- Trees for symbols in a row, and the word that they spell: the leaf of a terminal spells that,
and a node of a nonterminal what the trees below it spell for the right-hand side of a
production. -/
inductive Spells (g : Grammar) : List Symbol → List Tree → List String → Prop where
  | nil : Spells g [] [] []
  | leaf (a : String) {symbols : List Symbol} {ts : List Tree} {w : List String}
      (hts : Spells g symbols ts w) : Spells g (.terminal a :: symbols) (.leaf a :: ts) (a :: w)
  | node {p : Production} {symbols : List Symbol} {cs ts : List Tree} {u w : List String}
      (hp : p ∈ g.productions) (hcs : Spells g p.rhs cs u) (hts : Spells g symbols ts w) :
      Spells g (.nonterminal p.lhs :: symbols) (.above p.lhs cs :: ts) (u ++ w)

/-- Whether symbols in a row have the sort that their declaration says and names that do not stand
for the empty string, as those on right-hand sides of a well-formed grammar have. -/
def Declares (g : Grammar) (symbols : List Symbol) : Prop :=
  ∀ s ∈ symbols, (s.name ≠ epsilon ∧ s.name ≠ "") ∧
    (s.isNonterminal = true ↔ s.name ∈ g.nonterminals)

variable {g : Grammar} {p : Production} {symbols symbols' : List Symbol} {cs ts ts' : List Tree}
  {t : Tree} {a b : String} {w w' tokens : List String}

lemma IsWellFormed.declares (hg : g.IsWellFormed) (hp : p ∈ g.productions) : g.Declares p.rhs := by
  intro s hs
  refine ⟨hg.named p hp s hs, ?_⟩
  cases s with
  | terminal a => simpa [Symbol.isNonterminal, Symbol.name] using hg.not_mem_nonterminals hp hs
  | nonterminal a => simpa [Symbol.isNonterminal, Symbol.name] using hg.mem_nonterminals hp hs

lemma Declares.tail {s : Symbol} (h : g.Declares (s :: symbols)) : g.Declares symbols :=
  fun s' hs' => h s' (List.mem_cons_of_mem _ hs')

lemma Declares.mono (h : g.Declares symbols) (hsub : symbols' ⊆ symbols) : g.Declares symbols' :=
  fun s hs => h s (hsub hs)

lemma Declares.not_mem (h : g.Declares symbols) (ha : .terminal a ∈ symbols) :
    a ∉ g.nonterminals := fun hmem => by
  have hsort := (h _ ha).2.2 hmem
  simp [Symbol.isNonterminal] at hsort

lemma Declares.mem (h : g.Declares symbols) (ha : .nonterminal a ∈ symbols) :
    a ∈ g.nonterminals := (h _ ha).2.1 rfl

/-- The leaf of a declared symbol is open. -/
lemma Declares.isOpen {s : Symbol} (h : g.Declares symbols) (hs : s ∈ symbols) :
    (Tree.leaf s.name).isOpen = true :=
  Tree.isOpen_iff.2 ⟨rfl, rfl, (h s hs).1⟩

/-! ### Labels and widths -/

/-- The labels of trees that consist of productions. -/
def labels (g : Grammar) : List String :=
  epsilon :: g.productions.flatMap fun p => p.lhs :: p.rhsNames

/-- A number of children that no node of such trees exceeds. -/
def width (g : Grammar) : ℕ := (g.productions.map fun p => p.rhs.length).sum + 1

/-- Whether a node has a label of the grammar and not more children than it allows. -/
def IsPlain (g : Grammar) (t : Tree) : Prop := t.label ∈ g.labels ∧ t.children.length ≤ g.width

lemma lhs_mem_labels (hp : p ∈ g.productions) : p.lhs ∈ g.labels :=
  List.mem_cons_of_mem _ (List.mem_flatMap.2 ⟨p, hp, List.mem_cons_self⟩)

lemma name_mem_labels (hp : p ∈ g.productions) {s : Symbol} (hs : s ∈ p.rhs) :
    s.name ∈ g.labels :=
  List.mem_cons_of_mem _ (List.mem_flatMap.2
    ⟨p, hp, List.mem_cons_of_mem _ (List.mem_map_of_mem hs)⟩)

lemma isPlain_leaf (ha : a ∈ g.labels) : g.IsPlain (.leaf a) := ⟨ha, Nat.zero_le _⟩

lemma isPlain_above (hp : p ∈ g.productions) (hcs : cs.length ≤ p.rhs.length) :
    g.IsPlain (.above p.lhs cs) := by
  refine ⟨lhs_mem_labels hp, ?_⟩
  have hle : p.rhs.length ≤ (g.productions.map fun p => p.rhs.length).sum :=
    List.le_sum_of_mem (List.mem_map_of_mem (f := fun p : Production => p.rhs.length) hp)
  by_cases h : cs = []
  · simp [h, Tree.above_nil, Tree.branch, width]
  · rw [Tree.above_of_ne_nil _ h, width]
    exact (hcs.trans hle).trans (Nat.le_succ _)

namespace Spells

/-! ### Trees in a row -/

lemma append (h : g.Spells symbols ts w) (h' : g.Spells symbols' ts' w') :
    g.Spells (symbols ++ symbols') (ts ++ ts') (w ++ w') := by
  induction h with
  | nil => exact h'
  | leaf a _ ih => exact .leaf a ih
  | node hp hcs _ _ ih =>
      rw [List.append_assoc]
      exact .node hp hcs ih

lemma length_eq (h : g.Spells symbols ts w) : ts.length = symbols.length := by
  induction h with
  | nil => rfl
  | leaf a _ ih => simp [ih]
  | node _ _ _ _ ih => simp [ih]

/-- The trees have the names of the symbols. -/
lemma map_label (h : g.Spells symbols ts w) : ts.map Tree.label = symbols.map Symbol.name := by
  induction h with
  | nil => rfl
  | leaf a _ ih => exact congrArg _ ih
  | node _ _ _ _ ih => exact congrArg _ ih

/-- Without empty productions every tree spells something. -/
lemma length_le (hempty : g.hasEmptyProduction = false) (h : g.Spells symbols ts w) :
    symbols.length ≤ w.length := by
  induction h with
  | nil => exact le_rfl
  | leaf a _ ih => exact Nat.succ_le_succ ih
  | node hp _ _ ihcs ihts =>
      have hpos := List.length_pos_iff.2 (rhs_ne_nil hempty hp)
      rw [List.length_cons, List.length_append]
      omega

lemma singleton_node (hp : p ∈ g.productions) (hcs : g.Spells p.rhs cs w) :
    g.Spells [.nonterminal p.lhs] [.above p.lhs cs] w := by
  have h := Spells.node hp hcs .nil
  rwa [List.append_nil] at h

/-- A tree for a nonterminal stands over trees for a right-hand side of it. -/
lemma exists_of_nonterminal (h : g.Spells [.nonterminal a] [t] w) :
    ∃ p ∈ g.productions, p.lhs = a ∧ ∃ cs, t = .above a cs ∧ g.Spells p.rhs cs w := by
  obtain ⟨s, hs⟩ : ∃ s, s = Symbol.nonterminal a := ⟨_, rfl⟩
  rw [← hs] at h
  cases h with
  | leaf => cases hs
  | @node p _ cs _ u w hp hcs hts =>
      obtain rfl : p.lhs = a := Symbol.nonterminal.inj hs
      cases hts
      rw [List.append_nil]
      exact ⟨p, hp, rfl, cs, rfl, hcs⟩

/-- The symbols derive the word that the trees spell. -/
lemma derives (h : g.Spells symbols ts w) : g.Derives symbols (word w) := by
  induction h with
  | nil => exact .refl []
  | leaf a _ ih => exact ih.append_left [.terminal a]
  | node hp _ _ ihcs ihts =>
      rw [word_append]
      exact (derives_of_production hp ihcs).append ihts

/-- A nonterminal that derives a word has a tree that spells it. -/
lemma exists_of_derives (h : g.Derives symbols (word w)) : ∃ ts, g.Spells symbols ts w := by
  obtain ⟨ws, hws⟩ : ∃ ws, ws = word w := ⟨_, rfl⟩
  have hunfolds := unfolds_iff_derives.2 (hws ▸ h)
  clear h
  induction hunfolds generalizing w with
  | nil =>
      obtain rfl : w = [] := by simpa [word] using hws.symm
      exact ⟨[], .nil⟩
  | keep x _ ih =>
      cases w with
      | nil => simp [word] at hws
      | cons a w =>
          obtain ⟨rfl, rfl⟩ := List.cons.inj hws
          obtain ⟨ts, hts⟩ := ih rfl
          exact ⟨_, .leaf a hts⟩
  | expand hx _ _ ihrhs ihxs =>
      obtain ⟨p, hp, rfl, rfl⟩ := hx
      obtain ⟨u, v, rfl, rfl, rfl⟩ := List.map_eq_append_iff.1 hws.symm
      obtain ⟨cs, hcs⟩ := ihrhs rfl
      obtain ⟨ts, hts⟩ := ihxs rfl
      exact ⟨_, .node hp hcs hts⟩

/-! ### Rules and leaves -/

lemma forall₂_standsFor (h : g.Spells symbols ts w) : List.Forall₂ StandsFor symbols ts := by
  induction h with
  | nil => exact .nil
  | leaf a _ ih => exact .cons ⟨rfl, by simp [Tree.leaf, Symbol.isTerminal]⟩ ih
  | @node p _ cs _ _ _ _ _ _ _ ih =>
      have hinner := Tree.children_above_ne_nil p.lhs cs
      exact .cons ⟨rfl, by simpa [Symbol.isTerminal] using hinner⟩ ih

/-- The leaves of the trees are the word. -/
lemma frontier_eq (hg : g.IsWellFormed) (h : g.Spells symbols ts w) (hs : g.Declares symbols) :
    ts.flatMap Tree.frontier = w.map some := by
  induction h with
  | nil => rfl
  | @leaf a symbols ts w _ ih =>
      have hleaf := Tree.frontier_of_isOpen (hs.isOpen List.mem_cons_self)
      rw [List.flatMap_cons, ih hs.tail]
      exact congrArg (· ++ w.map some) hleaf
  | node hp _ _ ihcs ihts =>
      rw [List.flatMap_cons, Tree.frontier_above, ihcs (hg.declares hp), ihts hs.tail,
        List.map_append]

/-- No declared nonterminal is in the word. -/
lemma not_mem_nonterminals (hg : g.IsWellFormed) (h : g.Spells symbols ts w)
    (hs : g.Declares symbols) : ∀ a ∈ w, a ∉ g.nonterminals := by
  induction h with
  | nil => simp
  | leaf a _ ih =>
      exact List.forall_mem_cons.2 ⟨hs.not_mem List.mem_cons_self, ih hs.tail⟩
  | node hp _ _ ihcs ihts =>
      exact List.forall_mem_append.2 ⟨ihcs (hg.declares hp), ihts hs.tail⟩

/-- So none of the trees has an open leaf for a declared nonterminal. -/
lemma not_mem_frontier (hg : g.IsWellFormed) (h : g.Spells symbols ts w) (hs : g.Declares symbols)
    (hb : b ∈ g.nonterminals) : ∀ t ∈ ts, some b ∉ t.frontier := by
  intro t ht hmem
  have hall : some b ∈ ts.flatMap Tree.frontier := List.mem_flatMap.2 ⟨t, ht, hmem⟩
  rw [h.frontier_eq hg hs] at hall
  obtain ⟨a, ha, heq⟩ := List.mem_map.1 hall
  exact h.not_mem_nonterminals hg hs a ha (Option.some.inj heq ▸ hb)

/-- A property of the leaves of symbols and of the nodes over the right-hand sides of productions
holds of all nodes of the trees. -/
lemma everywhere {P : Tree → Prop} (hepsilon : P (.leaf epsilon))
    (hleaf : ∀ p ∈ g.productions, ∀ s ∈ p.rhs, P (.leaf s.name))
    (hnode : ∀ p ∈ g.productions, ∀ cs u, g.Spells p.rhs cs u → P (.above p.lhs cs))
    (h : g.Spells symbols ts w) (hs : ∀ s ∈ symbols, P (.leaf s.name)) :
    ∀ t ∈ ts, t.Everywhere P := by
  induction h with
  | nil => simp
  | leaf a _ ih =>
      obtain ⟨ha, hs⟩ := List.forall_mem_cons.1 hs
      exact List.forall_mem_cons.2 ⟨Tree.everywhere_leaf ha, ih hs⟩
  | @node p _ cs _ u _ hp hcs _ ihcs ihts =>
      obtain ⟨-, hs⟩ := List.forall_mem_cons.1 hs
      exact List.forall_mem_cons.2 ⟨Tree.everywhere_above (hnode p hp cs u hcs)
        (Tree.everywhere_leaf hepsilon) (ihcs (hleaf p hp)), ihts hs⟩

lemma isRuleNode_above (hp : p ∈ g.productions) (hcs : g.Spells p.rhs cs w) :
    g.IsRuleNode (.above p.lhs cs) := by
  refine ⟨rfl, fun _ => ⟨p, hp, rfl, ?_⟩⟩
  have hlength := hcs.length_eq
  split
  · rename_i hnil
    rw [hnil, List.length_nil, List.length_eq_zero_iff] at hlength
    rw [hlength]
    rfl
  · rename_i hne
    have hne' : cs ≠ [] := by
      rintro rfl
      exact hne (List.length_eq_zero_iff.1 hlength.symm)
    rw [Tree.above_of_ne_nil _ hne']
    exact hcs.forall₂_standsFor

lemma everywhere_isRuleNode (h : g.Spells symbols ts w) : ∀ t ∈ ts, t.Everywhere g.IsRuleNode :=
  have hleaf : ∀ a, g.IsRuleNode (.leaf a) := fun _ => ⟨rfl, fun hne => absurd rfl hne⟩
  h.everywhere (hleaf _) (fun _ _ _ _ => hleaf _) (fun _ hp _ _ => isRuleNode_above hp)
    fun _ _ => hleaf _

/-- The trees have the labels of the grammar, and no node has more children than it allows. -/
lemma everywhere_isPlain (h : g.Spells symbols ts w) (hs : ∀ s ∈ symbols, s.name ∈ g.labels) :
    ∀ t ∈ ts, t.Everywhere g.IsPlain := by
  refine h.everywhere (isPlain_leaf List.mem_cons_self)
    (fun p hp s hmem => isPlain_leaf (name_mem_labels hp hmem)) (fun p hp cs u hcs => ?_)
    fun s hmem => isPlain_leaf (hs s hmem)
  exact isPlain_above hp hcs.length_eq.le

end Spells

/-- No declared nonterminal is in an input that the start symbol derives. -/
lemma IsWellFormed.not_mem_of_generates (hg : g.IsWellFormed) (h : g.Generates tokens) :
    ∀ a ∈ tokens, a ∉ g.nonterminals := by
  obtain ⟨p, hp, -, hderives⟩ := exists_of_nonterminal_derives h
  obtain ⟨ts, hts⟩ := Spells.exists_of_derives hderives
  exact hts.not_mem_nonterminals hg (hg.declares hp)

/-- Nodes that stand for symbols in a row spell something, if the inner nodes among them stand over
trees for right-hand sides. -/
lemma exists_spells_of_forall₂ (h : List.Forall₂ StandsFor symbols ts)
    (hleaf : ∀ t ∈ ts, t.foot = false)
    (hinner : ∀ t ∈ ts, t.children ≠ [] → ∃ p ∈ g.productions, p.lhs = t.label ∧
      ∃ cs u, t = .above t.label cs ∧ g.Spells p.rhs cs u) : ∃ w, g.Spells symbols ts w := by
  induction h with
  | nil => exact ⟨[], .nil⟩
  | @cons s t symbols ts hs _ ih =>
      obtain ⟨w, hw⟩ := ih (fun u hu => hleaf u (List.mem_cons_of_mem _ hu))
        fun u hu => hinner u (List.mem_cons_of_mem _ hu)
      obtain ⟨hlabel, hsort⟩ := hs
      cases s with
      | terminal a =>
          have ht : t = .leaf a := by
            obtain ⟨label, foot, cs⟩ := t
            obtain rfl : cs = [] := hsort.2 rfl
            obtain rfl : label = a := hlabel
            obtain rfl : foot = false := hleaf _ List.mem_cons_self
            rfl
          rw [ht]
          exact ⟨_, .leaf a hw⟩
      | nonterminal b =>
          have hne : t.children ≠ [] := fun hnil => by
            simpa [Symbol.isTerminal] using hsort.1 hnil
          obtain ⟨p, hp, hlhs, cs, u, ht, hcs⟩ := hinner t List.mem_cons_self hne
          obtain rfl : p.lhs = b := hlhs.trans hlabel
          rw [ht, ← hlhs]
          exact ⟨_, .node hp hcs hw⟩

/-- An inner node that consists of rules stands over trees for a right-hand side. -/
lemma exists_spells_of_everywhere (ht : t.Everywhere g.IsRuleNode)
    (hinner : t.children ≠ []) :
    ∃ p ∈ g.productions, p.lhs = t.label ∧ ∃ cs w, t = .above t.label cs ∧ g.Spells p.rhs cs w := by
  induction t using Tree.ind with
  | h label foot children ih =>
      obtain ⟨⟨hfoot, hrule⟩, hchildren⟩ := Tree.everywhere_iff.1 ht
      obtain rfl : foot = false := hfoot
      obtain ⟨p, hp, rfl, hcases⟩ := hrule hinner
      refine ⟨p, hp, rfl, ?_⟩
      split at hcases
      · rename_i hnil
        obtain rfl : children = [.leaf epsilon] := hcases
        exact ⟨[], [], rfl, hnil ▸ .nil⟩
      · obtain ⟨w, hw⟩ := exists_spells_of_forall₂ hcases
          (fun c hc => (Tree.everywhere_iff.1 (hchildren c hc)).1.1)
          fun c hc => ih c hc (hchildren c hc)
        exact ⟨children, w, (Tree.above_of_ne_nil _ hinner).symm, hw⟩

/-- The parse trees of an input are the trees that spell it over a production of the start
symbol. -/
theorem isParseTree_iff (hg : g.IsWellFormed) :
    g.IsParseTree tokens t ↔ g.Spells [.nonterminal g.start] [t] tokens := by
  constructor
  · rintro ⟨hlabel, hinner, hnodes, hfrontier⟩
    obtain ⟨p, hp, hlhs, cs, w, ht, hcs⟩ := exists_spells_of_everywhere hnodes hinner
    have hw : w = tokens := by
      rw [ht, Tree.frontier_above, hcs.frontier_eq hg (hg.declares hp)] at hfrontier
      exact List.map_injective_iff.2 (Option.some_injective _) hfrontier
    rw [ht, ← hw, ← hlabel, ← hlhs]
    exact .singleton_node hp hcs
  · intro h
    obtain ⟨p, hp, hlhs, cs, ht, hcs⟩ := h.exists_of_nonterminal
    refine ⟨ht ▸ rfl, ht ▸ Tree.children_above_ne_nil _ _,
      h.everywhere_isRuleNode t (List.mem_singleton_self _), ?_⟩
    rw [ht, Tree.frontier_above, hcs.frontier_eq hg (hg.declares hp)]

/-! ### Cycles -/

/-- When one of the inner nodes is left as it is, the symbols derive its nonterminal between parts
of the word. -/
lemma Spells.exists_of_mem_nodes (hg : g.IsWellFormed) (h : g.Spells symbols ts w)
    (hs : g.Declares symbols) (ht : t ∈ ts.flatMap fun c => c.nodes.map Prod.snd)
    (hinner : t.children ≠ []) :
    ∃ b left v right, t.label = b ∧ b ∈ g.nonterminals ∧ g.Spells [.nonterminal b] [t] v ∧
      w = left ++ v ++ right ∧ g.Derives symbols (word left ++ .nonterminal b :: word right) := by
  induction h with
  | nil => simp at ht
  | @leaf a symbols ts w _ ih =>
      rw [List.flatMap_cons, List.mem_append] at ht
      rcases ht with ht | ht
      · exact absurd (congrArg Tree.children (Tree.eq_of_mem_nodes rfl ht)) hinner
      · obtain ⟨b, left, v, right, hlabel, hb, hv, rfl, hderives⟩ := ih hs.tail ht
        have hcons := hderives.append_left [Symbol.terminal a]
        exact ⟨b, a :: left, v, right, hlabel, hb, hv, rfl, hcons⟩
  | @node p symbols cs ts u w hp hcs hts ihcs ihts =>
      rw [List.flatMap_cons, List.mem_append, Tree.mem_map_snd_nodes] at ht
      rcases ht with (rfl | ⟨c, hc, ht⟩) | ht
      · refine ⟨p.lhs, [], u, w, rfl, hs.mem List.mem_cons_self, .singleton_node hp hcs, rfl, ?_⟩
        exact hts.derives.append_left [.nonterminal p.lhs]
      · have hmem : t ∈ cs.flatMap fun c => c.nodes.map Prod.snd := by
          rcases Tree.mem_children_above hc with hc | ⟨-, rfl⟩
          · exact List.mem_flatMap.2 ⟨c, hc, ht⟩
          · exact absurd (congrArg Tree.children (Tree.eq_of_mem_nodes rfl ht)) hinner
        obtain ⟨b, left, v, right, hlabel, hb, hv, rfl, hderives⟩ := ihcs (hg.declares hp) hmem
        refine ⟨b, left, v, right ++ w, hlabel, hb, hv, by simp, ?_⟩
        have hboth := ((Derives.replace [] symbols (Replaces.of_mem hp)).trans
          (hderives.append_right symbols)).trans
            (hts.derives.append_left (word left ++ .nonterminal b :: word right))
        simpa [word_append, Grammar.Derives] using hboth
      · obtain ⟨b, left, v, right, hlabel, hb, hv, rfl, hderives⟩ := ihts hs.tail ht
        refine ⟨b, u ++ left, v, right, hlabel, hb, hv, by simp, ?_⟩
        have hboth := (derives_of_production hp hcs.derives).append hderives
        simpa [word_append, Grammar.Derives] using hboth

/-- Whether no declared nonterminal derives itself in one or more steps. -/
def IsAcyclic (g : Grammar) : Prop :=
  ∀ a ∈ g.nonterminals, ¬TransGen (Step g.Replaces) [.nonterminal a] [.nonterminal a]

/-- There are no cycles if the nonterminals on right-hand sides have lower ranks than the left-hand
sides. -/
lemma IsAcyclic.of_rank (rank : String → ℕ) (h : ∀ p ∈ g.productions, ∀ b,
    .nonterminal b ∈ p.rhs → rank b < rank p.lhs) : g.IsAcyclic := by
  intro a _ hcycle
  have hrank : ∀ {us}, TransGen (Step g.Replaces) [.nonterminal a] us →
      ∀ b, .nonterminal b ∈ us → rank b < rank a := by
    intro us hus
    induction hus with
    | single hstep =>
        obtain ⟨u, hu⟩ : ∃ u, u = [Symbol.nonterminal a] := ⟨_, rfl⟩
        rw [← hu] at hstep
        obtain ⟨left, right, p, hp, rfl, rfl⟩ := hstep
        obtain ⟨rfl, ha, rfl⟩ :
            left = [] ∧ .nonterminal p.lhs = Symbol.nonterminal a ∧ right = [] := by
          simpa [List.append_eq_singleton_iff] using hu
        obtain rfl := Symbol.nonterminal.inj ha
        simpa using h p hp
    | tail _ hstep ih =>
        obtain ⟨left, right, p, hp, rfl, rfl⟩ := hstep
        have hlhs := ih p.lhs (by simp)
        intro b hb
        rcases List.mem_append.1 hb with hb | hb
        · rcases List.mem_append.1 hb with hb | hb
          · exact ih b (List.mem_append_left _ hb)
          · exact (h p hp b hb).trans hlhs
        · exact ih b (List.mem_append_right _ (List.mem_cons_of_mem _ hb))
  exact lt_irrefl _ (hrank hcycle a (List.mem_singleton_self _))

/-- Without cycles a right-hand side does not derive its left-hand side alone. -/
lemma IsAcyclic.not_derives (hacyclic : g.IsAcyclic) (hp : p ∈ g.productions)
    (hlhs : p.lhs ∈ g.nonterminals) : ¬g.Derives p.rhs [.nonterminal p.lhs] := by
  intro h
  have hstep := Step.replace [] [] (Replaces.of_mem hp)
  rw [List.nil_append, List.append_nil] at hstep
  exact hacyclic p.lhs hlhs (.head' hstep h)

/-- Without cycles no tree for the left-hand side of a production occurs among the trees for a part
of its right-hand side, if it spells as much as these and the rest of the right-hand side. -/
lemma IsAcyclic.not_mem_nodes (hacyclic : g.IsAcyclic) (hg : g.IsWellFormed)
    (hp : p ∈ g.productions) {rest : List Symbol} (hrhs : p.rhs = symbols ++ rest)
    (h : g.Spells symbols cs w) (hinner : t.children ≠ []) (hlabel : t.label = p.lhs)
    (hlength : w.length + rest.length ≤ t.frontier.length) :
    t ∉ cs.flatMap fun c => c.nodes.map Prod.snd := by
  intro ht
  have hdeclares := (hg.declares hp).mono (hrhs ▸ List.subset_append_left symbols rest)
  obtain ⟨b, left, v, right, rfl, hb, hv, rfl, hderives⟩ :=
    h.exists_of_mem_nodes hg hdeclares ht hinner
  obtain ⟨q, hq, -, ds, hds, hv⟩ := hv.exists_of_nonterminal
  have hfrontier : t.frontier.length = v.length := by
    rw [hds, Tree.frontier_above, hv.frontier_eq hg (hg.declares hq), List.length_map]
  rw [hfrontier, List.length_append, List.length_append] at hlength
  obtain rfl : left = [] := List.length_eq_zero_iff.1 (by omega)
  obtain rfl : right = [] := List.length_eq_zero_iff.1 (by omega)
  obtain rfl : rest = [] := List.length_eq_zero_iff.1 (by omega)
  rw [List.append_nil] at hrhs
  exact hacyclic.not_derives hp (hlabel ▸ hb) (by rw [hrhs]; exact hlabel ▸ hderives)

/-- Without cycles no tree for a nonterminal occurs below the root of another one that does not
spell more. -/
lemma IsAcyclic.not_hasProperSubtree (hacyclic : g.IsAcyclic) (hg : g.IsWellFormed) {u : Tree}
    (ht : g.Spells [.nonterminal a] [t] w) (hu : g.Spells [.nonterminal a] [u] w')
    (hlength : w.length ≤ w'.length) : t.hasProperSubtree u = false := by
  refine Tree.hasProperSubtree_eq_false_iff.2 fun c hc hmem => ?_
  obtain ⟨p, hp, rfl, cs, rfl, hcs⟩ := ht.exists_of_nonterminal
  obtain ⟨q, hq, -, ds, rfl, hds⟩ := hu.exists_of_nonterminal
  have hinner := Tree.children_above_ne_nil p.lhs ds
  rcases Tree.mem_children_above hc with hc | ⟨-, rfl⟩
  · refine hacyclic.not_mem_nodes hg hp (List.append_nil _).symm hcs hinner rfl ?_
      (List.mem_flatMap.2 ⟨c, hc, hmem⟩)
    rw [Tree.frontier_above, hds.frontier_eq hg (hg.declares hq), List.length_map]
    exact hlength
  · exact hinner (congrArg Tree.children (Tree.eq_of_mem_nodes rfl hmem))

end ContextFree.Grammar

end DeductiveParsing
