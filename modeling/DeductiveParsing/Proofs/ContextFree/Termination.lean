/-
Runs on context-free grammars that end although the grammars may be cyclic.

* `exists_run_earley_cyk`: runs of Earley parsing and of parsing by spans.
-/
import DeductiveParsing.Algorithm
import DeductiveParsing.Proofs.ContextFree.EarleyForests
import DeductiveParsing.Proofs.Cyk.Forests

namespace DeductiveParsing

open ContextFree

variable {W : Type} [Weight W]

/-- For every grammar that is read from a file, cyclic ones included, and every input: a run of
Earley parsing or of parsing by spans ends, although an item waits again each time its forest
grows. Earley parsing and parsing by spans in general accept every grammar. -/
theorem exists_run_earley_cyk {file : String} {g : Grammar}
    (hread : GrammarFile.readContextFree file = .ok g) (tokens : List String) :
    (∀ a ∈ [Algorithm.earley, .cykGeneral],
      ∃ schema : Schema W, a.compileTokens (.contextFree g) tokens = .ok schema) ∧
    ∀ a ∈ [Algorithm.earley, .cykGeneral, .cyk, .cykExtended], ∀ schema : Schema W,
      a.compileTokens (.contextFree g) tokens = .ok schema →
        ∃ fuel o, Deduction.run ⟨a.policy, none⟩ schema fuel = .ok o := by
  have hg := GrammarFile.isWellFormed_of_readContextFree hread
  constructor
  · intro a ha
    simp only [List.mem_cons, List.not_mem_nil, or_false] at ha
    rcases ha with rfl | rfl
    · exact ⟨_, rfl⟩
    · exact ⟨_, rfl⟩
  · intro a ha schema hschema
    simp only [List.mem_cons, List.not_mem_nil, or_false] at ha
    rcases ha with rfl | rfl | rfl | rfl
    · exact Deduction.exists_run_of_composes rfl rfl (Earley.composes hg hschema)
    · exact Deduction.exists_run_of_composes rfl rfl
        ((Cyk.isSpanSchema_cykGeneral hschema).composes hg)
    · exact Deduction.exists_run_of_composes rfl rfl
        ((Cyk.isNormalSchema_cyk hschema).toIsSpanSchema.composes hg)
    · exact Deduction.exists_run_of_composes rfl rfl
        ((Cyk.isNormalSchema_cykExtended hschema).toIsSpanSchema.composes hg)

/-- A file in which the start symbol is itself or a letter. -/
def cycleFile : String :=
  "N = \x7b\"S\"\x7d\nT = \x7b\"a\"\x7d\nS = \"S\"\nP = \x7b\"S -> S\", \"S -> a\"\x7d\n"

/-- The grammar in that file. -/
def cycleGrammar : Grammar :=
  ⟨["S"], ["a"], "S", [⟨"S", [.nonterminal "S"]⟩, ⟨"S", [.terminal "a"]⟩]⟩

lemma read_cycleFile : GrammarFile.readContextFree cycleFile = .ok cycleGrammar := by
  decide +kernel

/-- Runs end on a letter that has a parse tree of every height. -/
theorem exists_run_earley_cyk_cycle :
    GrammarFile.readContextFree cycleFile = .ok cycleGrammar ∧
      ∀ a ∈ [Algorithm.earley, .cykGeneral, .cykExtended], ∃ (schema : Schema Float) (fuel : ℕ)
        (o : Outcome Float), a.compileTokens (.contextFree cycleGrammar) ["a"] = .ok schema ∧
          Deduction.run ⟨a.policy, none⟩ schema fuel = .ok o := by
  obtain ⟨hschema, hrun⟩ := exists_run_earley_cyk (W := Float) read_cycleFile ["a"]
  refine ⟨read_cycleFile, fun a ha => ?_⟩
  obtain ⟨schema, hschema⟩ : ∃ schema : Schema Float,
      a.compileTokens (.contextFree cycleGrammar) ["a"] = .ok schema := by
    simp only [List.mem_cons, List.not_mem_nil, or_false] at ha
    rcases ha with rfl | rfl | rfl
    · exact hschema _ (by simp)
    · exact hschema _ (by simp)
    · exact ⟨_, rfl⟩
  obtain ⟨fuel, o, h⟩ := hrun a (by grind) schema hschema
  exact ⟨schema, fuel, o, hschema, h⟩

end DeductiveParsing
