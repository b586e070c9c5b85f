/-
Parses of weighted grammars: trees together with the weighted productions that they consist of.

* `Grammar.Parses`: trees for symbols in a row, with the word that they spell and their productions;
* `Parses.spells`, `exists_parses`: these are the trees of the grammar without the weights;
* `Parses.induction_chomsky`: in Chomsky normal form a tree stands over a token, over the empty
  string or over two trees that spell something;
* `Grammar.valuesOf`: the values of all parses of a word from a name.
-/
import DeductiveParsing.Proofs.Cyk.NormalForm
import DeductiveParsing.Weighted.Grammar

namespace DeductiveParsing.Weighted

open ContextFree.Grammar (Spells)

variable {W : Type}

namespace Grammar

/-- Trees for symbols in a row, with the word that they spell and the weighted productions that they
consist of: the leaf of a terminal consists of none, and a node of a nonterminal of its production
and those of the trees below it. -/
inductive Parses (g : Grammar W) : List Symbol → List Tree → List String →
    List (Production W) → Prop where
  | nil : Parses g [] [] [] []
  | leaf (a : String) {symbols : List Symbol} {ts : List Tree} {w : List String}
      {ps : List (Production W)} (hts : Parses g symbols ts w ps) :
      Parses g (.terminal a :: symbols) (.leaf a :: ts) (a :: w) ps
  | node {p : Production W} {symbols : List Symbol} {cs ts : List Tree} {u w : List String}
      {ps qs : List (Production W)} (hp : p ∈ g.productions)
      (hcs : Parses g p.production.rhs cs u ps) (hts : Parses g symbols ts w qs) :
      Parses g (.nonterminal p.production.lhs :: symbols) (.above p.production.lhs cs :: ts)
        (u ++ w) (p :: (ps ++ qs))

/-- The values of all parses of a word from a name. -/
def valuesOf {V : Type} (g : Grammar W) (value : List (Production W) → V) (name : String)
    (w : List String) : Set V :=
  {v | ∃ t ps, g.Parses [.nonterminal name] [t] w ps ∧ value ps = v}

variable {g : Grammar W} {symbols : List Symbol} {ts cs : List Tree} {t t₁ t₂ : Tree}
  {w u v : List String} {ps qs rs : List (Production W)} {p : Production W} {a b c : String}

lemma mem_unweighted (hp : p ∈ g.productions) : p.production ∈ g.unweighted.productions :=
  List.mem_map_of_mem hp

/-- In Chomsky normal form only the start symbol has an empty production. -/
lemma lhs_eq_start_of_empty (hg : g.unweighted.isChomskyNormal = true) (hp : p ∈ g.productions)
    (hrhs : p.production.rhs = []) : p.production.lhs = g.start := by
  have hcases := List.all_eq_true.1 hg p.production (mem_unweighted hp)
  have htolerates : g.unweighted.toleratesEmpty p.production = true := by
    simpa [Production.isBinary, Production.isLexical, hrhs] using hcases
  simp only [ContextFree.Grammar.toleratesEmpty, Bool.and_eq_true, beq_iff_eq] at htolerates
  exact htolerates.1.2

/-- In Chomsky normal form the names that derive the empty string have an empty production. -/
lemma derives_nil_iff (hg : g.unweighted.isChomskyNormal = true) :
    g.unweighted.Derives [.nonterminal a] [] ↔ ⟨a, []⟩ ∈ g.unweighted.productions :=
  ⟨ContextFree.Grammar.exists_empty_of_derives_nil
    (ContextFree.Grammar.isTwoForm_of_isChomskyNormal hg),
    fun hmem => ContextFree.Grammar.derives_of_production hmem (.refl [])⟩

namespace Parses

/-- Without the productions these are the trees of the grammar without the weights. -/
lemma spells (h : g.Parses symbols ts w ps) : g.unweighted.Spells symbols ts w := by
  induction h with
  | nil => exact .nil
  | leaf a _ ih => exact .leaf a ih
  | node hp _ _ ihcs ihts => exact .node (mem_unweighted hp) ihcs ihts

lemma mem_productions (h : g.Parses symbols ts w ps) : ∀ p ∈ ps, p ∈ g.productions := by
  induction h with
  | nil => simp
  | leaf _ _ ih => exact ih
  | node hp _ _ ihcs ihts =>
      exact List.forall_mem_cons.2 ⟨hp, List.forall_mem_append.2 ⟨ihcs, ihts⟩⟩

lemma singleton_node (hp : p ∈ g.productions) (hcs : g.Parses p.production.rhs cs w ps) :
    g.Parses [.nonterminal p.production.lhs] [.above p.production.lhs cs] w (p :: ps) := by
  have h := Parses.node hp hcs .nil
  rwa [List.append_nil, List.append_nil] at h

/-- A production of a token is a parse. -/
lemma of_lexical (hp : p ∈ g.productions) (hrhs : p.production.rhs = [.terminal a]) :
    g.Parses [.nonterminal p.production.lhs] [.ofProduction p.production] [a] [p] := by
  have hleaf : g.Parses p.production.rhs (Tree.leaves p.production.rhs) [a] [] := by
    rw [hrhs]
    exact .leaf a .nil
  rw [Tree.ofProduction_eq_above]
  exact singleton_node hp hleaf

/-- A production of the empty string is a parse. -/
lemma of_empty (hp : p ∈ g.productions) (hrhs : p.production.rhs = []) :
    g.Parses [.nonterminal p.production.lhs] [.ofProduction p.production] [] [p] := by
  have hnil : g.Parses p.production.rhs (Tree.leaves p.production.rhs) [] [] := by
    rw [hrhs]
    exact .nil
  rw [Tree.ofProduction_eq_above]
  exact singleton_node hp hnil

lemma append_pair (h : g.Parses [.nonterminal b] [t₁] u ps)
    (h' : g.Parses [.nonterminal c] [t₂] v qs) :
    g.Parses [.nonterminal b, .nonterminal c] [t₁, t₂] (u ++ v) (ps ++ qs) := by
  obtain ⟨s, hs⟩ : ∃ s, s = Symbol.nonterminal b := ⟨_, rfl⟩
  rw [← hs] at h
  cases h with
  | leaf => cases hs
  | @node p _ cs _ _ _ ps₁ ps₂ hp hcs hts =>
      cases hts
      rw [← hs, List.append_nil, List.append_nil]
      exact .node hp hcs h'

/-- A binary production over two parses is a parse. -/
lemma of_binary (hp : p ∈ g.productions)
    (hrhs : p.production.rhs = [.nonterminal b, .nonterminal c])
    (h : g.Parses [.nonterminal b] [t₁] u ps) (h' : g.Parses [.nonterminal c] [t₂] v qs) :
    g.Parses [.nonterminal p.production.lhs] [.above p.production.lhs [t₁, t₂]] (u ++ v)
      (p :: (ps ++ qs)) :=
  singleton_node hp (hrhs ▸ h.append_pair h')

/-- A tree for a nonterminal stands over trees for a right-hand side of it. -/
lemma exists_of_nonterminal (h : g.Parses [.nonterminal a] [t] w ps) :
    ∃ p ∈ g.productions, p.production.lhs = a ∧ ∃ cs qs, t = .above a cs ∧ ps = p :: qs ∧
      g.Parses p.production.rhs cs w qs := by
  obtain ⟨s, hs⟩ : ∃ s, s = Symbol.nonterminal a := ⟨_, rfl⟩
  rw [← hs] at h
  cases h with
  | leaf => cases hs
  | @node p _ cs _ _ _ qs _ hp hcs hts =>
      obtain rfl : p.production.lhs = a := Symbol.nonterminal.inj hs
      cases hts
      rw [List.append_nil, List.append_nil]
      exact ⟨p, hp, rfl, cs, qs, rfl, rfl, hcs⟩

/-- Trees for two nonterminals spell one part of the word each. -/
lemma exists_of_pair (h : g.Parses [.nonterminal b, .nonterminal c] ts w ps) :
    ∃ t₁ t₂ u v qs rs, ts = [t₁, t₂] ∧ w = u ++ v ∧ ps = qs ++ rs ∧
      g.Parses [.nonterminal b] [t₁] u qs ∧ g.Parses [.nonterminal c] [t₂] v rs := by
  obtain ⟨s, hs⟩ : ∃ s, s = Symbol.nonterminal b := ⟨_, rfl⟩
  rw [← hs] at h
  cases h with
  | leaf => cases hs
  | @node p _ cs ts u v qs rs hp hcs hts =>
      obtain rfl : p.production.lhs = b := Symbol.nonterminal.inj hs
      have hlength := hts.spells.length_eq
      obtain ⟨t₂, rfl⟩ := List.length_eq_one_iff.1 hlength
      exact ⟨_, t₂, u, v, p :: qs, rs, rfl, rfl, rfl, .singleton_node hp hcs, hts⟩

/-- In Chomsky normal form the two parts of a tree spell something. -/
lemma ne_nil_of_mem_rhs (hg : g.unweighted.isChomskyNormal = true) (hp : p ∈ g.productions)
    (ha : .nonterminal a ∈ p.production.rhs) (h : g.Parses [.nonterminal a] [t] w ps) :
    w ≠ [] :=
  ContextFree.Grammar.ne_nil_of_mem_rhs (ContextFree.Grammar.isTwoForm_of_isChomskyNormal hg)
    (mem_unweighted hp) ha h.spells.derives

/-- In Chomsky normal form a tree stands over a token, over the empty string or over two trees that
spell something. The induction is on the number of productions. -/
theorem induction_chomsky (hg : g.unweighted.isChomskyNormal = true)
    {motive : String → Tree → List String → List (Production W) → Prop}
    (lexical : ∀ p ∈ g.productions, ∀ a, p.production.rhs = [.terminal a] →
      motive p.production.lhs (.ofProduction p.production) [a] [p])
    (empty : ∀ p ∈ g.productions, p.production.rhs = [] →
      motive p.production.lhs (.ofProduction p.production) [] [p])
    (binary : ∀ p ∈ g.productions, ∀ b c t₁ t₂ u v qs rs,
      p.production.rhs = [.nonterminal b, .nonterminal c] →
        g.Parses [.nonterminal b] [t₁] u qs → g.Parses [.nonterminal c] [t₂] v rs → u ≠ [] →
          v ≠ [] → motive b t₁ u qs → motive c t₂ v rs →
            motive p.production.lhs (.above p.production.lhs [t₁, t₂]) (u ++ v) (p :: (qs ++ rs)))
    (h : g.Parses [.nonterminal a] [t] w ps) : motive a t w ps := by
  obtain ⟨n, hn⟩ : ∃ n, ps.length = n := ⟨_, rfl⟩
  induction n using Nat.strong_induction_on generalizing a t w ps with
  | _ n ih =>
    obtain ⟨p, hp, rfl, cs, qs, rfl, rfl, hcs⟩ := h.exists_of_nonterminal
    have hcases := List.all_eq_true.1 hg p.production (mem_unweighted hp)
    simp only [Bool.or_eq_true] at hcases
    rcases hcases with (hbinary | hlexical) | hempty
    · obtain ⟨b, c, hrhs⟩ := Cyk.rhs_of_isBinary hbinary
      rw [hrhs] at hcs
      obtain ⟨t₁, t₂, u, v, qs, rs, rfl, rfl, rfl, hleft, hright⟩ := hcs.exists_of_pair
      rw [List.length_cons, List.length_append] at hn
      exact binary p hp b c t₁ t₂ u v qs rs hrhs hleft hright
        (hleft.ne_nil_of_mem_rhs hg hp (by simp [hrhs]))
        (hright.ne_nil_of_mem_rhs hg hp (by simp [hrhs])) (ih _ (by omega) hleft rfl)
        (ih _ (by omega) hright rfl)
    · obtain ⟨b, hrhs⟩ := Cyk.rhs_of_isLexical hlexical
      rw [hrhs] at hcs
      cases hcs with
      | leaf _ hnil =>
          cases hnil
          have htree : Tree.above p.production.lhs [.leaf b] = .ofProduction p.production := by
            rw [Tree.ofProduction_eq_above, hrhs]
            rfl
          exact htree ▸ lexical p hp b hrhs
    · have hrhs : p.production.rhs = [] := by
        simp only [ContextFree.Grammar.toleratesEmpty, Bool.and_eq_true] at hempty
        exact List.isEmpty_iff.1 hempty.1.1
      rw [hrhs] at hcs
      cases hcs
      have htree : Tree.above p.production.lhs [] = .ofProduction p.production := by
        rw [Tree.ofProduction_eq_above, hrhs]
        rfl
      exact htree ▸ empty p hp hrhs

end Parses

/-- The trees of the grammar without the weights consist of weighted productions. -/
lemma exists_parses (h : g.unweighted.Spells symbols ts w) : ∃ ps, g.Parses symbols ts w ps := by
  induction h with
  | nil => exact ⟨[], .nil⟩
  | leaf a _ ih =>
      obtain ⟨ps, hps⟩ := ih
      exact ⟨ps, .leaf a hps⟩
  | node hp _ _ ihcs ihts =>
      obtain ⟨q, hq, rfl⟩ := List.mem_map.1 hp
      obtain ⟨ps, hps⟩ := ihcs
      obtain ⟨qs, hqs⟩ := ihts
      exact ⟨_, .node hq hps hqs⟩

/-- What a name derives has a parse. -/
lemma exists_parses_of_derives (h : g.unweighted.Derives [.nonterminal a] (ContextFree.word w)) :
    ∃ t ps, g.Parses [.nonterminal a] [t] w ps := by
  obtain ⟨ts, hts⟩ := ContextFree.Grammar.Spells.exists_of_derives h
  obtain ⟨t, rfl⟩ := List.length_eq_one_iff.1 hts.length_eq
  obtain ⟨ps, hps⟩ := exists_parses hts
  exact ⟨t, ps, hps⟩

/-- The words with a parse from a name are those that it derives. -/
lemma nonempty_valuesOf_iff {V : Type} (value : List (Production W) → V) :
    (g.valuesOf value a w).Nonempty ↔
      g.unweighted.Derives [.nonterminal a] (ContextFree.word w) := by
  constructor
  · rintro ⟨_, t, ps, h, -⟩
    exact h.spells.derives
  · intro h
    obtain ⟨t, ps, hps⟩ := exists_parses_of_derives h
    exact ⟨_, t, ps, hps, rfl⟩

end Grammar

end DeductiveParsing.Weighted
