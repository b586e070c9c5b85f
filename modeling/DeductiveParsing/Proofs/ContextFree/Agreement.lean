/-
Algorithms that find the same trees.

* `mem_trees_iff_isParseTree`: without empty productions and cycles, top-down parsing, parsing by
  spans and Earley parsing find exactly the parse trees.
-/
import DeductiveParsing.Algorithm
import DeductiveParsing.Proofs.ContextFree.EarleyForests
import DeductiveParsing.Proofs.Cyk.ParseTrees
import DeductiveParsing.Proofs.TopDown.Forests

namespace DeductiveParsing

open ContextFree Grammar

variable {W : Type} [Weight W] {g : Grammar} {tokens : List String}

/-- For every grammar that is read from a file in which left-hand sides are declared, no production
is empty and no nonterminal derives itself, and for every input without declared nonterminals:
top-down parsing, parsing by spans in general and Earley parsing accept the grammar, their runs
end, and the trees of their outcomes are exactly the parse trees of the input. -/
theorem mem_trees_iff_isParseTree {file : String}
    (hread : GrammarFile.readContextFree file = .ok g)
    (hlhs : ∀ p ∈ g.productions, p.lhs ∈ g.nonterminals) (hempty : g.hasEmptyProduction = false)
    (hacyclic : g.IsAcyclic) (htokens : ∀ b ∈ tokens, b ∉ g.nonterminals) :
    ∀ a ∈ [Algorithm.topDown, .cykGeneral, .earley], ∃ schema : Schema W,
      a.compileTokens (.contextFree g) tokens = .ok schema ∧
        (∃ fuel o, Deduction.run ⟨a.policy, none⟩ schema fuel = .ok o) ∧
          ∀ limit fuel o, Deduction.run ⟨a.policy, limit⟩ schema fuel = .ok o →
            ∀ t, t ∈ o.trees ↔ g.IsParseTree tokens t := by
  have hg := GrammarFile.isWellFormed_of_readContextFree hread
  intro a ha
  simp only [List.mem_cons, List.not_mem_nil, or_false] at ha
  rcases ha with rfl | rfl | rfl
  · obtain ⟨schema, hschema⟩ : ∃ schema : Schema W, Schema.topDown g tokens = .ok schema := by
      rw [Schema.topDown, hempty]
      exact ⟨_, rfl⟩
    have hloop := TopDown.not_leadsTo_self hg hlhs hacyclic
    exact ⟨schema, hschema, Deduction.exists_run rfl rfl (TopDown.bounds hschema hloop),
      fun _ _ _ h _ => TopDown.mem_trees_iff hg hlhs hempty htokens hschema hloop rfl h⟩
  · obtain ⟨schema, hschema⟩ : ∃ schema : Schema W, Schema.cykGeneral g tokens = .ok schema :=
      ⟨_, rfl⟩
    have hcomposes := (Cyk.isSpanSchema_cykGeneral hschema).composes hg
    exact ⟨schema, hschema, Deduction.exists_run_of_composes rfl rfl hcomposes,
      fun _ _ _ h _ => Cyk.mem_trees_iff hg hlhs hempty hschema hacyclic rfl h⟩
  · obtain ⟨schema, hschema⟩ : ∃ schema : Schema W, Schema.earley g tokens = .ok schema := ⟨_, rfl⟩
    exact ⟨schema, hschema,
      Deduction.exists_run_of_composes rfl rfl (Earley.composes hg hschema),
      fun _ _ _ h _ => Earley.mem_trees_iff hg hacyclic hschema rfl h⟩

/-- A file in which the start symbol is two parts, or a letter and a part. -/
def lettersFile : String :=
  "N = \x7b\"S\", \"A\"\x7d\nT = \x7b\"a\"\x7d\nS = \"S\"\n" ++
    "P = \x7b\"S -> A A\", \"S -> a A\", \"A -> a\"\x7d\n"

/-- The grammar in that file. -/
def lettersGrammar : Grammar :=
  ⟨["S", "A"], ["a"], "S", [⟨"S", [.nonterminal "A", .nonterminal "A"]⟩,
    ⟨"S", [.terminal "a", .nonterminal "A"]⟩, ⟨"A", [.terminal "a"]⟩]⟩

lemma read_lettersFile : GrammarFile.readContextFree lettersFile = .ok lettersGrammar := by
  decide +kernel

lemma isAcyclic_lettersGrammar : lettersGrammar.IsAcyclic :=
  .of_rank (fun a => if a = "S" then 1 else 0) (by simp [lettersGrammar])

/-- On two letters the three algorithms find the tree of either production. -/
theorem mem_trees_iff_isParseTree_letters :
    GrammarFile.readContextFree lettersFile = .ok lettersGrammar ∧
      (∀ p ∈ lettersGrammar.productions, p.lhs ∈ lettersGrammar.nonterminals) ∧
      lettersGrammar.hasEmptyProduction = false ∧ lettersGrammar.IsAcyclic ∧
      (∀ b ∈ ["a", "a"], b ∉ lettersGrammar.nonterminals) ∧
      ∀ a ∈ [Algorithm.topDown, .cykGeneral, .earley], ∃ (schema : Schema Float) (fuel : ℕ)
        (o : Outcome Float), a.compileTokens (.contextFree lettersGrammar) ["a", "a"] = .ok schema ∧
          Deduction.run ⟨a.policy, none⟩ schema fuel = .ok o ∧
          .branch "S" [.branch "A" [.leaf "a"], .branch "A" [.leaf "a"]] ∈ o.trees ∧
          .branch "S" [.leaf "a", .branch "A" [.leaf "a"]] ∈ o.trees := by
  have hg := GrammarFile.isWellFormed_of_readContextFree read_lettersFile
  have hlhs : ∀ p ∈ lettersGrammar.productions, p.lhs ∈ lettersGrammar.nonterminals := by decide
  have hempty : lettersGrammar.hasEmptyProduction = false := by decide
  have htokens : ∀ b ∈ ["a", "a"], b ∉ lettersGrammar.nonterminals := by decide
  have hpart : lettersGrammar.Spells [.nonterminal "A"] [.above "A" [.leaf "a"]] ["a"] :=
    .singleton_node (p := ⟨"A", [.terminal "a"]⟩) (by simp [lettersGrammar]) (.leaf "a" .nil)
  have hparts : lettersGrammar.IsParseTree ["a", "a"]
      (.above "S" [.above "A" [.leaf "a"], .above "A" [.leaf "a"]]) :=
    (isParseTree_iff hg).2 <| .singleton_node (p := ⟨"S", [.nonterminal "A", .nonterminal "A"]⟩)
      (by simp [lettersGrammar]) (hpart.append hpart)
  have hletter : lettersGrammar.IsParseTree ["a", "a"]
      (.above "S" [.leaf "a", .above "A" [.leaf "a"]]) :=
    (isParseTree_iff hg).2 <| .singleton_node (p := ⟨"S", [.terminal "a", .nonterminal "A"]⟩)
      (by simp [lettersGrammar]) (.leaf "a" hpart)
  refine ⟨read_lettersFile, hlhs, hempty, isAcyclic_lettersGrammar, htokens, fun a ha => ?_⟩
  obtain ⟨schema, hschema, ⟨fuel, o, h⟩, htrees⟩ := mem_trees_iff_isParseTree (W := Float)
    read_lettersFile hlhs hempty isAcyclic_lettersGrammar htokens a ha
  exact ⟨schema, fuel, o, hschema, h, (htrees _ _ _ h _).2 hparts, (htrees _ _ _ h _).2 hletter⟩

end DeductiveParsing
