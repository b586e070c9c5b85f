/-
Context-free grammars as tree-adjoining ones, whose only operation is substitution.

* `isWellFormed_ofContextFree`: each production is an initial tree with a name of its own;
* `derives_ofProduction`: the trees of its symbols fill the leaves of a production;
* `spells_of_derives`: nothing else is derived from it;
* `generates_ofContextFree_iff`: so both grammars generate the same inputs;
* `earley_treeEarley_agrees`: what Earley parsing finds with the productions, parsing from the left
  finds with their trees, and so does parsing from the bottom up if they are short enough.
-/
import Std.Data.String.ToNat
import DeductiveParsing.Algorithm
import DeductiveParsing.Proofs.ContextFree.EarleyForests
import DeductiveParsing.Proofs.TreeAdjoining.Agreement
import DeductiveParsing.Proofs.TreeAdjoining.Earley.Termination

namespace DeductiveParsing

/-- Whether left-hand sides are declared as nonterminals and terminals as such, and no symbol as
both. The letter for the empty string is declared as neither. -/
structure ContextFree.Grammar.IsDeclared (g : ContextFree.Grammar) : Prop where
  lhs_mem : ∀ p ∈ g.productions, p.lhs ∈ g.nonterminals
  terminal_mem : ∀ p ∈ g.productions, ∀ a, .terminal a ∈ p.rhs → a ∈ g.terminals
  disjoint : g.nonterminals.Disjoint g.terminals
  epsilon_not_nonterminal : epsilon ∉ g.nonterminals
  epsilon_not_terminal : epsilon ∉ g.terminals

namespace TreeAdjoining

open ContextFree.Grammar (Spells)

variable {g : ContextFree.Grammar} {p : Production} {name : String} {t u : Tree}
  {tokens : List String}

/-! ### Elementary trees -/

/-- The productions have names of their own. -/
lemma nodup_names_ofContextFree (g : ContextFree.Grammar) :
    ((g.productions.zipIdx.map fun (p, i) =>
      ("α" ++ (i + 1).repr, Tree.ofProduction p)).map Prod.fst).Nodup := by
  have hname : Function.Injective fun i : ℕ => "α" ++ (i + 1).repr := fun i j h =>
    Nat.succ_injective (Nat.repr_injective ((String.append_right_inj "α").1 h))
  rw [List.map_map, show (Prod.fst ∘ fun ((p, i) : Production × ℕ) =>
    ("α" ++ (i + 1).repr, Tree.ofProduction p)) = (fun i : ℕ => "α" ++ (i + 1).repr) ∘ Prod.snd
      from rfl, ← List.map_map, List.zipIdx_map_snd]
  exact List.Nodup.map hname List.nodup_range'

lemma perm_initial_ofContextFree (g : ContextFree.Grammar) :
    (Grammar.ofContextFree g).initial.Perm
      (g.productions.zipIdx.map fun (p, i) => ("α" ++ (i + 1).repr, Tree.ofProduction p)) :=
  perm_ofNamed (nodup_names_ofContextFree g)

lemma trees_ofContextFree (g : ContextFree.Grammar) :
    (Grammar.ofContextFree g).trees = (Grammar.ofContextFree g).initial := List.append_nil _

lemma exists_of_mem_initial (hmem : (name, t) ∈ (Grammar.ofContextFree g).initial) :
    ∃ p ∈ g.productions, t = .ofProduction p := by
  obtain ⟨⟨p, i⟩, hp, heq⟩ := List.mem_map.1 ((perm_initial_ofContextFree g).subset hmem)
  exact ⟨p, (List.mem_zipIdx hp).2.2 ▸ List.getElem_mem _, (Prod.mk.inj heq).2.symm⟩

lemma exists_mem_initial (hp : p ∈ g.productions) :
    ∃ name, (name, .ofProduction p) ∈ (Grammar.ofContextFree g).initial := by
  obtain ⟨i, hi, rfl⟩ := List.mem_iff_getElem.1 hp
  refine ⟨_, (perm_initial_ofContextFree g).symm.subset (List.mem_map.2
    ⟨(g.productions[i], i), ?_, rfl⟩)⟩
  exact List.mem_zipIdx_iff_getElem?.2 (List.getElem?_eq_getElem hi)

/-- What holds of the roots of productions and of the leaves for their symbols and for the empty
string holds of all nodes. -/
lemma everywhere_ofContextFree {P : Tree → Prop}
    (hroot : ∀ p ∈ g.productions, P (.ofProduction p))
    (hleaf : ∀ p ∈ g.productions, ∀ s ∈ p.rhs, P (.leaf s.name)) (hepsilon : P (.leaf epsilon)) :
    ∀ named ∈ (Grammar.ofContextFree g).trees, named.2.Everywhere P := by
  rintro ⟨name, t⟩ hnamed
  rw [trees_ofContextFree] at hnamed
  obtain ⟨p, hp, rfl⟩ := exists_of_mem_initial hnamed
  have hp' := hroot p hp
  rw [Tree.ofProduction_eq_above] at hp'
  show (Tree.ofProduction p).Everywhere P
  rw [Tree.ofProduction_eq_above]
  refine Tree.everywhere_above hp' (Tree.everywhere_leaf hepsilon) fun c hc => ?_
  obtain ⟨s, hs, rfl⟩ := List.mem_map.1 hc
  exact Tree.everywhere_leaf (hleaf p hp s hs)

lemma everywhere_not_foot_ofContextFree (g : ContextFree.Grammar) :
    ∀ named ∈ (Grammar.ofContextFree g).trees, named.2.Everywhere fun u => u.foot = false :=
  everywhere_ofContextFree (fun _ _ => rfl) (fun _ _ _ _ => rfl) rfl

/-- The initial trees of productions have names of their own, no feet and labels everywhere. -/
lemma isWellFormed_ofContextFree (hg : g.IsWellFormed) (hlhs : ∀ p ∈ g.productions, p.lhs ≠ "") :
    (Grammar.ofContextFree g).IsWellFormed where
  nodup_names := by
    rw [trees_ofContextFree]
    exact ((perm_initial_ofContextFree g).map Prod.fst).nodup_iff.2 (nodup_names_ofContextFree g)
  feet_initial named hnamed := List.filter_eq_nil_iff.2 fun u hu => by
    simpa using everywhere_not_foot_ofContextFree g named (List.mem_append_left _ hnamed) u hu
  feet_auxiliary _ hnamed := absurd hnamed List.not_mem_nil
  isLabelled := everywhere_ofContextFree (P := fun u => u.foot = false → u.label ≠ "")
    (fun p hp _ => hlhs p hp) (fun p hp s hs _ => (hg.named p hp s hs).2) fun _ => by decide

lemma hasLeafFeet_ofContextFree (g : ContextFree.Grammar) :
    (Grammar.ofContextFree g).HasLeafFeet := by
  intro named hnamed node hnode hfoot
  have hplain := everywhere_not_foot_ofContextFree g named hnamed _ (List.mem_map_of_mem hnode)
  exact absurd hfoot (by simp [hplain])

/-- If the left-hand sides are declared, all inner nodes have nonterminals. -/
lemma hasNonterminals_ofContextFree (hlhs : ∀ p ∈ g.productions, p.lhs ∈ g.nonterminals) :
    TreeEarley.HasNonterminals (Grammar.ofContextFree g) := by
  have hall := everywhere_ofContextFree (g := g)
    (P := fun u => u.isLeaf = false ∨ u.foot = true → u.label ∈ g.nonterminals)
    (fun p hp _ => hlhs p hp) (fun _ _ _ _ h => by simp [Tree.isLeaf, Tree.leaf] at h)
    (fun h => by simp [Tree.isLeaf, Tree.leaf] at h)
  exact fun named hnamed node hnode => hall named hnamed _ (List.mem_map_of_mem hnode)

/-- If right-hand sides have at most two symbols, nodes have at most two children. -/
lemma isBinary_ofContextFree (hshort : ∀ p ∈ g.productions, p.rhs.length ≤ 2) :
    (Grammar.ofContextFree g).IsBinary := by
  have hall := everywhere_ofContextFree (g := g) (P := fun u => u.children.length ≤ 2)
    (fun p hp => by
      rw [Tree.ofProduction]
      split
      · simp [Tree.branch]
      · simpa [Tree.branch, Production.rhsNames] using hshort p hp)
    (fun _ _ _ _ => Nat.zero_le 2) (Nat.zero_le 2)
  exact fun named hnamed node hnode => hall named hnamed _ (List.mem_map_of_mem hnode)

/-! ### Derivations -/

/-- The trees of its symbols fill the leaves of a production. -/
lemma derives_ofProduction {Stays : Tree → Prop} {cs : List Tree}
    (hepsilon : Stays (.leaf epsilon))
    (hcs : List.Forall₂ ((Grammar.ofContextFree g).Derives Stays) (Tree.leaves p.rhs) cs) :
    (Grammar.ofContextFree g).Derives Stays (.ofProduction p) (.above p.lhs cs) := by
  rw [Tree.ofProduction_eq_above]
  by_cases hrhs : Tree.leaves p.rhs = []
  · rw [hrhs] at hcs ⊢
    cases hcs
    exact .inner (List.cons_ne_nil _ _) (.cons (.stay rfl hepsilon) .nil)
  · have hne : cs ≠ [] := by
      rintro rfl
      exact hrhs (List.forall₂_nil_right_iff.1 hcs)
    rw [Tree.above_of_ne_nil _ hrhs, Tree.above_of_ne_nil _ hne]
    exact .inner hrhs hcs

/-- What the leaf of the empty string, the leaf of a symbol and the tree of a production turn into:
the first stays, and the others turn into trees that spell words for the symbol and for the
right-hand side. -/
structure Unfolded (g : ContextFree.Grammar) (t u : Tree) : Prop where
  epsilon : t = .leaf epsilon → u = t
  symbol : ∀ s, g.Declares [s] → t = .leaf s.name → ∃ w, Spells g [s] [u] w
  production : ∀ p ∈ g.productions, t = .ofProduction p →
    ∃ cs w, u = .above p.lhs cs ∧ Spells g p.rhs cs w

/-- Trees that spell a word for symbols are derived from the leaves of the symbols. -/
lemma derives_of_spells (hdeclared : g.IsDeclared) {symbols : List Symbol} {ts : List Tree} {w : List String}
    (h : Spells g symbols ts w) (hterminals : ∀ a, .terminal a ∈ symbols → a ∈ g.terminals) :
    List.Forall₂ ((Grammar.ofContextFree g).Derives (Grammar.ofContextFree g).MayStay)
      (Tree.leaves symbols) ts := by
  induction h with
  | nil => exact .nil
  | leaf a _ ih =>
      have ha := hterminals a List.mem_cons_self
      exact .cons (.stay rfl (Or.inr (Or.inr ha)))
        (ih fun b hb => hterminals b (List.mem_cons_of_mem _ hb))
  | @node p symbols cs ts u w hp _ _ ihcs ihts =>
      have hbelow := derives_ofProduction (p := p) (Or.inr (Or.inl (by decide)))
        (ihcs (hdeclared.terminal_mem p hp))
      obtain ⟨name, hmem⟩ := exists_mem_initial hp
      exact .cons (.substitute ⟨rfl, rfl, hdeclared.lhs_mem p hp⟩ hmem rfl hbelow)
        (ihts fun b hb => hterminals b (List.mem_cons_of_mem _ hb))

/-- Trees for the leaves of symbols spell words for these symbols. -/
lemma exists_spells_of_forall₂ {symbols : List Symbol} {us : List Tree}
    (hus : List.Forall₂ (Unfolded g) (Tree.leaves symbols) us) (hsymbols : g.Declares symbols) :
    ∃ w, Spells g symbols us w := by
  induction symbols generalizing us with
  | nil =>
      cases hus
      exact ⟨[], .nil⟩
  | cons s symbols ih =>
      cases hus with
      | cons hu hus =>
          obtain ⟨v, hv⟩ := hu.symbol s
            (hsymbols.mono (List.cons_subset_cons s (List.nil_subset _))) rfl
          obtain ⟨w, hw⟩ := ih hus hsymbols.tail
          exact ⟨v ++ w, hv.append hw⟩

section Declared

variable (hg : g.IsWellFormed) (hdeclared : g.IsDeclared)
include hg hdeclared

/-- Nothing else is derived from the leaf of the empty string, the leaf of a symbol and the tree of
a production. -/
theorem unfolded_of_derives
    (h : (Grammar.ofContextFree g).Derives (Grammar.ofContextFree g).MayStay t u) :
    Unfolded g t u := by
  have hinner : ∀ {p : Production} {t : Tree}, t.children = [] → t ≠ .ofProduction p := by
    rintro p t hleaf rfl
    rw [Tree.ofProduction_eq_above] at hleaf
    exact Tree.children_above_ne_nil _ _ hleaf
  refine Grammar.Derives.ind ?stay ?substitute ?inner ?adjoin h
  case stay =>
    rintro t hleaf hstays
    refine ⟨fun _ => rfl, fun s hs ht => ?_, fun p _ ht => absurd ht (hinner hleaf)⟩
    subst ht
    have hs' := hs s List.mem_cons_self
    -- a leaf with a name that stays has a terminal
    have hterminal : s.name ∈ g.terminals := by
      rcases hstays with hfoot | hempty | hterminal
      · cases hfoot
      · exact ((Tree.isEpsilon_iff.1 hempty).2.elim hs'.1.1 hs'.1.2).elim
      · exact hterminal
    cases s with
    | terminal a => exact ⟨[a], .leaf a .nil⟩
    | nonterminal a => exact (hdeclared.disjoint (hs'.2.1 rfl) hterminal).elim
  case substitute =>
    intro t u alpha name hsite hmem hlabel _ ih
    obtain ⟨q, hq, rfl⟩ := exists_of_mem_initial hmem
    refine ⟨fun ht => ?_, fun s hs ht => ?_, fun p _ ht => absurd ht (hinner hsite.1)⟩
    · subst ht
      exact absurd hsite.2.2 hdeclared.epsilon_not_nonterminal
    · subst ht
      obtain ⟨cs, w, rfl, hcs⟩ := ih.production q hq rfl
      cases s with
      | terminal a => exact absurd hsite.2.2 (hs.not_mem List.mem_cons_self)
      | nonterminal a =>
          obtain rfl : q.lhs = a := hlabel
          exact ⟨w, .singleton_node hq hcs⟩
  case inner =>
    intro t us hne _ ih
    refine ⟨fun ht => absurd (ht ▸ rfl) hne, fun s _ ht => absurd (ht ▸ rfl) hne, fun p hp ht => ?_⟩
    subst ht
    rw [Tree.ofProduction_eq_above] at ih ⊢
    by_cases hrhs : p.rhs = []
    · rw [hrhs, Tree.leaves_nil, Tree.above_nil] at ih ⊢
      obtain ⟨u, rfl⟩ := List.length_eq_one_iff.1 ih.length_eq.symm
      cases ih with
      | cons hu _ =>
          obtain rfl := hu.epsilon rfl
          exact ⟨[], [], rfl, .nil⟩
    · have hleaves : Tree.leaves p.rhs ≠ [] := by simpa [Tree.leaves] using hrhs
      rw [Tree.above_of_ne_nil _ hleaves] at ih ⊢
      obtain ⟨w, hw⟩ := exists_spells_of_forall₂ ih (hg.declares hp)
      have hus : us ≠ [] := by
        rintro rfl
        exact hleaves (List.forall₂_nil_right_iff.1 ih)
      exact ⟨us, w, (Tree.above_of_ne_nil _ hus).symm, hw⟩
  case adjoin => exact fun t us beta b name _ _ _ hmem => absurd hmem List.not_mem_nil

/-- A context-free grammar and the tree-adjoining grammar of its productions generate the same
inputs. -/
theorem generates_ofContextFree_iff :
    (Grammar.ofContextFree g).Generates (Grammar.ofContextFree g).MayStay tokens ↔
      g.Generates tokens := by
  constructor
  · rintro ⟨name, alpha, u, hmem, hstart, hderives, hfrontier⟩
    obtain ⟨p, hp, rfl⟩ := exists_of_mem_initial hmem
    obtain ⟨cs, w, rfl, hcs⟩ := (unfolded_of_derives hg hdeclared hderives).production p hp rfl
    rw [Tree.frontier_above, hcs.frontier_eq hg (hg.declares hp)] at hfrontier
    obtain rfl := (Option.some_injective _).list_map hfrontier
    rw [ContextFree.Grammar.Generates, ← (show p.lhs = g.start from hstart)]
    exact ContextFree.Grammar.derives_of_production hp hcs.derives
  · intro hgenerates
    obtain ⟨p, hp, hstart, hrhs⟩ := ContextFree.Grammar.exists_of_nonterminal_derives hgenerates
    obtain ⟨cs, hcs⟩ := Spells.exists_of_derives hrhs
    obtain ⟨name, hmem⟩ := exists_mem_initial hp
    refine ⟨name, .ofProduction p, .above p.lhs cs, hmem, hstart, ?_, ?_⟩
    · exact derives_ofProduction (Or.inr (Or.inl (by decide)))
        (derives_of_spells hdeclared hcs (hdeclared.terminal_mem p hp))
    · rw [Tree.frontier_above, hcs.frontier_eq hg (hg.declares hp)]

end Declared

/-! ### Runs -/

/-- For every context-free grammar that is read from a file, whose left-hand sides are declared as
nonterminals and whose terminals are declared as such, none as both, and which declares the letter
for the empty string as neither, and for every input: whenever the runs have ended, something is
derivable with trees from the left exactly if something is in Earley parsing. If no right-hand side
has more than two symbols, the same holds with trees from the bottom up. -/
theorem earley_treeEarley_agrees {W : Type} [Weight W] {file : String}
    (hread : GrammarFile.readContextFree file = .ok g) (hdeclared : g.IsDeclared)
    (tokens : List String) :
    ∃ dotted walks : Schema W,
      Algorithm.earley.compileTokens (.contextFree g) tokens = .ok dotted ∧
      Algorithm.treeEarley.compileTokens (.contextFree g) tokens = .ok walks ∧
      (∀ (settings settings' : Settings) (fuel fuel' : ℕ) (o o' : Outcome W),
        Deduction.run settings dotted fuel = .ok o → Deduction.run settings' walks fuel' = .ok o' →
          o'.isDerivable = o.isDerivable) ∧
      ((∀ p ∈ g.productions, p.rhs.length ≤ 2) →
        ∃ spans : Schema W, Algorithm.treeCyk.compileTokens (.contextFree g) tokens = .ok spans ∧
          ∀ (settings settings' : Settings) (fuel fuel' : ℕ) (o o' : Outcome W),
            Deduction.run settings dotted fuel = .ok o →
            Deduction.run settings' spans fuel' = .ok o' → o'.isDerivable = o.isDerivable) := by
  have hg := GrammarFile.isWellFormed_of_readContextFree hread
  have htrees := isWellFormed_ofContextFree hg (GrammarFile.lhs_ne_empty_of_readContextFree hread)
  have hfeet := hasLeafFeet_ofContextFree g
  have hgenerates : (Grammar.ofContextFree g).Generates (Grammar.ofContextFree g).MayStay tokens ↔
      g.Generates tokens := generates_ofContextFree_iff hg hdeclared
  obtain ⟨dotted, hdotted⟩ : ∃ schema : Schema W, Schema.earley g tokens = .ok schema := ⟨_, rfl⟩
  obtain ⟨walks, hwalks⟩ : ∃ schema : Schema W,
      Schema.treeEarley (Grammar.ofContextFree g) tokens = .ok schema := ⟨_, rfl⟩
  refine ⟨dotted, walks, hdotted, hwalks, fun settings settings' fuel fuel' o o' h h' => ?_,
    fun hshort => ?_⟩
  · rw [Bool.eq_iff_iff, Earley.isDerivable_iff_generates hdotted h, ← hgenerates]
    exact TreeEarley.isDerivable_iff_of_run htrees hfeet
      (hasNonterminals_ofContextFree hdeclared.lhs_mem) hdeclared.epsilon_not_terminal hwalks h'
  · have hbinary := isBinary_ofContextFree hshort
    obtain ⟨spans, hspans, -⟩ := exists_schema_treeCyk (W := W) htrees hfeet hbinary tokens
    refine ⟨spans, hspans, fun settings settings' fuel fuel' o o' h h' => ?_⟩
    rw [Bool.eq_iff_iff, Earley.isDerivable_iff_generates hdotted h, ← hgenerates]
    exact TreeCyk.isDerivable_iff_of_run htrees hfeet hbinary hspans h'

/-- A file in which rows of a letter grow on the right, from nothing. -/
def rowFile : String :=
  "N = \x7b\"S\"\x7d\nT = \x7b\"a\"\x7d\nS = \"S\"\nP = \x7b\"S -> S a\", \"S -> ε\"\x7d\n"

/-- The grammar in that file. -/
def rowGrammar : ContextFree.Grammar :=
  ⟨["S"], ["a"], "S", [⟨"S", [.nonterminal "S", .terminal "a"]⟩, ⟨"S", []⟩]⟩

lemma read_rowFile : GrammarFile.readContextFree rowFile = .ok rowGrammar := by
  decide +kernel

lemma isDeclared_rowGrammar : rowGrammar.IsDeclared where
  lhs_mem := by decide
  terminal_mem p hp a ha := by
    simp only [rowGrammar, List.mem_cons, List.not_mem_nil, or_false] at hp
    rcases hp with rfl | rfl <;> simp_all [rowGrammar]
  disjoint := by simp [rowGrammar]
  epsilon_not_nonterminal := by decide
  epsilon_not_terminal := by decide

/-- The only tree without anchors takes up nothing. -/
lemma acyclic_rowGrammar :
    ∀ t, ¬Relation.TransGen (Grammar.ofContextFree rowGrammar).LeadsTo t t :=
  Grammar.not_transGen_leadsTo_of_rank (fun _ => 0) (by decide)

/-- The runs on one letter end with a parse. -/
theorem exists_earley_treeEarley_agrees_row :
    ∃ (dotted walks spans : Schema Float) (fuel fuel' fuel'' : ℕ) (o o' o'' : Outcome Float),
      GrammarFile.readContextFree rowFile = .ok rowGrammar ∧ rowGrammar.IsDeclared ∧
      (∀ p ∈ rowGrammar.productions, p.rhs.length ≤ 2) ∧
      Algorithm.earley.compileTokens (.contextFree rowGrammar) ["a"] = .ok dotted ∧
      Algorithm.treeEarley.compileTokens (.contextFree rowGrammar) ["a"] = .ok walks ∧
      Algorithm.treeCyk.compileTokens (.contextFree rowGrammar) ["a"] = .ok spans ∧
      Deduction.run ⟨.accumulate, none⟩ dotted fuel = .ok o ∧
      Deduction.run ⟨.accumulate, none⟩ walks fuel' = .ok o' ∧
      Deduction.run ⟨.accumulate, none⟩ spans fuel'' = .ok o'' ∧
      o.isDerivable = true ∧ o'.isDerivable = true ∧ o''.isDerivable = true := by
  have hg := GrammarFile.isWellFormed_of_readContextFree read_rowFile
  have htrees := isWellFormed_ofContextFree hg
    (GrammarFile.lhs_ne_empty_of_readContextFree read_rowFile)
  have hfeet := hasLeafFeet_ofContextFree rowGrammar
  have hshort : ∀ p ∈ rowGrammar.productions, p.rhs.length ≤ 2 := by decide
  obtain ⟨dotted, walks, hdotted, hwalks, hagrees, hagrees'⟩ :=
    earley_treeEarley_agrees (W := Float) read_rowFile isDeclared_rowGrammar ["a"]
  obtain ⟨spans, hspans, hagrees'⟩ := hagrees' hshort
  obtain ⟨fuel, o, h⟩ : ∃ fuel o, Deduction.run ⟨.accumulate, none⟩ dotted fuel = .ok o :=
    Deduction.exists_run_of_composes rfl rfl (Earley.composes hg hdotted)
  obtain ⟨fuel', o', h'⟩ : ∃ fuel o, Deduction.run ⟨.accumulate, none⟩ walks fuel = .ok o :=
    TreeEarley.exists_run_of_acyclic htrees hfeet acyclic_rowGrammar hwalks
  obtain ⟨fuel'', o'', h''⟩ : ∃ fuel o, Deduction.run ⟨.accumulate, none⟩ spans fuel = .ok o :=
    Deduction.exists_run rfl rfl
      (TreeCyk.bounds htrees hfeet (isBinary_ofContextFree hshort) hspans)
  have hempty : Spells rowGrammar [.nonterminal "S"] [.above "S" []] [] :=
    .singleton_node (p := ⟨"S", []⟩) (by simp [rowGrammar]) .nil
  have hrow : Spells rowGrammar [.nonterminal "S"] _ ["a"] :=
    .singleton_node (p := ⟨"S", [.nonterminal "S", .terminal "a"]⟩) (by simp [rowGrammar])
      (hempty.append (.leaf "a" .nil))
  have ho : o.isDerivable = true := (Earley.isDerivable_iff_generates hdotted h).2 hrow.derives
  exact ⟨dotted, walks, spans, fuel, fuel', fuel'', o, o', o'', read_rowFile,
    isDeclared_rowGrammar, hshort, hdotted, hwalks, hspans, h, h', h'', ho,
    (hagrees _ _ _ _ _ _ h h').trans ho, (hagrees' _ _ _ _ _ _ h h'').trans ho⟩

end TreeAdjoining

end DeductiveParsing
