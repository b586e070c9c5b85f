/-
Left-corner parsing of grammars in which a terminal is called like the mark.

* `LeftCorner.isDerivable_iff_generates`: what is derivable where left-hand sides are declared;
* `LeftCorner.leftCorner_earley_of_mark`: how left-corner parsing and Earley parsing compare;
* `LeftCorner.exists_leftCorner_ne_earley`: they differ on a terminal of this name that does not
  stand first on its right-hand side.
-/
import DeductiveParsing.Algorithm
import DeductiveParsing.Proofs.ContextFree.EarleyForests
import DeductiveParsing.Proofs.LeftCorner.Recognition

namespace DeductiveParsing.LeftCorner

open ContextFree Grammar Rewriting
open LeftCornerRule (mark)

variable {W : Type} {g : Grammar} {tokens : List String}

lemma isWellFormed_unmarked (hg : g.IsWellFormed) : (unmarked g).IsWellFormed :=
  ⟨fun p hp => hg.classified p (mem_unmarked.1 hp).1, fun p hp => hg.named p (mem_unmarked.1 hp).1⟩

/-- What is generated without some productions is generated with them. -/
lemma generates_of_unmarked (h : (unmarked g).Generates tokens) : g.Generates tokens := by
  refine Derives.mono (fun x rhs hx => ?_) h
  obtain ⟨p, hp, hlhs, hrhs⟩ := hx
  exact ⟨p, (mem_unmarked.1 hp).1, hlhs, hrhs⟩

variable [Weight W] {schema schema' : Schema W} {settings settings' : Settings} {fuel fuel' : ℕ}
  {o o' : Outcome W}

/-- When a run has ended, something is derivable if the start symbol derives the input with
productions that have no mark behind their first symbol. -/
lemma isDerivable_iff_generates (hg : g.IsWellFormed) (hstart : g.start ∈ g.nonterminals)
    (hlhs : ∀ p ∈ g.productions, p.lhs ∈ g.nonterminals) (hmark : mark ∉ g.nonterminals)
    (htokens : ∀ a ∈ tokens, a ∉ g.nonterminals)
    (hschema : Schema.leftCorner g tokens = .ok schema)
    (h : Deduction.run settings schema fuel = .ok o) :
    o.isDerivable = true ↔ (unmarked g).Generates tokens := by
  have hne : g.start ≠ mark := fun heq => hmark (heq ▸ hstart)
  have hgenerates : (unmarked g).Generates tokens ↔ (unmarked g).DerivesNames [g.start] tokens :=
    generates_iff_derivesNames (isWellFormed_unmarked hg) hstart
      (fun p hp => hlhs p (mem_unmarked.1 hp).1) htokens
  rw [isDerivable_iff hschema h, hgenerates, and_iff_right hne]

/-- For every grammar that is read from a file, in which the start symbol and left-hand sides are
declared, that left-corner parsing accepts and that uses the mark as a terminal, and for every input
without nonterminals: when the runs have ended, left-corner parsing finds derivable what the start
symbol derives with productions that have no mark behind their first symbol, and Earley parsing
finds derivable what it derives with all of them. So they agree on all inputs of grammars in which
terminals of this name stand first on their right-hand sides only. -/
theorem leftCorner_earley_of_mark {file : String}
    (hread : GrammarFile.readContextFree file = .ok g) (hstart : g.start ∈ g.nonterminals)
    (hlhs : ∀ p ∈ g.productions, p.lhs ∈ g.nonterminals) (hmark : mark ∉ g.nonterminals)
    (htokens : ∀ a ∈ tokens, a ∉ g.nonterminals)
    (hschema : Algorithm.leftCorner.compileTokens (.contextFree g) tokens = .ok schema)
    (hschema' : Algorithm.earley.compileTokens (.contextFree g) tokens = .ok schema')
    (h : Deduction.run settings schema fuel = .ok o)
    (h' : Deduction.run settings' schema' fuel' = .ok o') :
    (o.isDerivable = true ↔ (unmarked g).Generates tokens) ∧
      (o'.isDerivable = true ↔ g.Generates tokens) ∧
      (o.isDerivable = true → o'.isDerivable = true) ∧
      ((∀ p ∈ g.productions, mark ∉ p.rhsNames.drop 1) → o.isDerivable = o'.isDerivable) := by
  have hg := GrammarFile.isWellFormed_of_readContextFree hread
  have hleft := isDerivable_iff_generates hg hstart hlhs hmark htokens hschema h
  have hearley := Earley.isDerivable_iff_generates (g := g) hschema' h'
  refine ⟨hleft, hearley, fun ho => hearley.2 (generates_of_unmarked (hleft.1 ho)), fun hall => ?_⟩
  rw [unmarked_eq_self hall] at hleft
  exact Bool.eq_iff_iff.2 (hleft.trans hearley.symm)

/-- A file in which the mark is a terminal that stands first or last. -/
def marksFile : String :=
  "N = \x7b\"S\"\x7d\nT = \x7b\"a\", \"$\"\x7d\nS = \"S\"\nP = \x7b\"S -> $ a\", \"S -> a $\"\x7d\n"

/-- The grammar in that file. -/
def marksGrammar : Grammar :=
  ⟨["S"], ["a", "$"], "S", [⟨"S", [.terminal "$", .terminal "a"]⟩,
    ⟨"S", [.terminal "a", .terminal "$"]⟩]⟩

lemma read_marksFile : GrammarFile.readContextFree marksFile = .ok marksGrammar := by
  decide +kernel

/-- Runs of both algorithms end on both strings of that grammar. -/
lemma exists_run_marks {a : Algorithm} {w : List String}
    (ha : a ∈ [Algorithm.leftCorner, .earley]) (hw : w ∈ [["$", "a"], ["a", "$"]]) :
    ∃ (schema : Schema Float) (o : Outcome Float),
      a.compileTokens (.contextFree marksGrammar) w = .ok schema ∧
        Deduction.run ⟨.accumulate, none⟩ schema 20 = .ok o := by
  have hends : (match a.compileTokens (.contextFree marksGrammar) w with
      | .ok schema => (Deduction.run (W := Float) ⟨.accumulate, none⟩ schema 20).isOk
      | .error _ => false) = true := by
    simp only [List.mem_cons, List.not_mem_nil, or_false] at ha hw
    rcases ha with rfl | rfl <;> rcases hw with rfl | rfl <;> cbv
  split at hends
  · rename_i schema hschema
    obtain ⟨o, h⟩ := Deduction.exists_of_isOk hends
    exact ⟨schema, o, hschema, h⟩
  · cases hends

lemma productions_unmarked_marksGrammar :
    (unmarked marksGrammar).productions = [⟨"S", [.terminal "$", .terminal "a"]⟩] := by
  decide

/-- Both algorithms find the string derivable in which the mark stands first. -/
theorem leftCorner_earley_of_mark_marks :
    GrammarFile.readContextFree marksFile = .ok marksGrammar ∧
      marksGrammar.start ∈ marksGrammar.nonterminals ∧
      (∀ p ∈ marksGrammar.productions, p.lhs ∈ marksGrammar.nonterminals) ∧
      mark ∉ marksGrammar.nonterminals ∧ (∀ a ∈ ["$", "a"], a ∉ marksGrammar.nonterminals) ∧
      ∃ (schema schema' : Schema Float) (o o' : Outcome Float),
        Algorithm.leftCorner.compileTokens (.contextFree marksGrammar) ["$", "a"] = .ok schema ∧
        Algorithm.earley.compileTokens (.contextFree marksGrammar) ["$", "a"] = .ok schema' ∧
        Deduction.run ⟨.accumulate, none⟩ schema 20 = .ok o ∧
        Deduction.run ⟨.accumulate, none⟩ schema' 20 = .ok o' ∧
        o.isDerivable = true ∧ o'.isDerivable = true := by
  have hstart : marksGrammar.start ∈ marksGrammar.nonterminals := by decide
  have hlhs : ∀ p ∈ marksGrammar.productions, p.lhs ∈ marksGrammar.nonterminals := by decide
  have hmark : mark ∉ marksGrammar.nonterminals := by decide
  have htokens : ∀ a ∈ ["$", "a"], a ∉ marksGrammar.nonterminals := by decide
  obtain ⟨schema, o, hschema, h⟩ :=
    exists_run_marks (a := .leftCorner) (w := ["$", "a"]) (by simp) (by simp)
  obtain ⟨schema', o', hschema', h'⟩ :=
    exists_run_marks (a := .earley) (w := ["$", "a"]) (by simp) (by simp)
  obtain ⟨hleft, -, hearley, -⟩ := leftCorner_earley_of_mark read_marksFile hstart hlhs hmark
    htokens hschema hschema' h h'
  have hgenerates : (unmarked marksGrammar).Generates ["$", "a"] :=
    derives_of_production (p := ⟨"S", [.terminal "$", .terminal "a"]⟩)
      (by simp [productions_unmarked_marksGrammar]) (.refl _)
  have ho := hleft.2 hgenerates
  exact ⟨read_marksFile, hstart, hlhs, hmark, htokens, schema, schema', o, o', hschema, hschema',
    h, h', ho, hearley ho⟩

/-- Left-corner parsing does not find the string derivable in which the mark stands last, but Earley
parsing does. -/
theorem exists_leftCorner_ne_earley :
    GrammarFile.readContextFree marksFile = .ok marksGrammar ∧ mark ∈ marksGrammar.terminals ∧
      (∀ a ∈ ["a", "$"], a ∈ marksGrammar.terminals) ∧
      ∃ (schema schema' : Schema Float) (o o' : Outcome Float),
        Algorithm.leftCorner.compileTokens (.contextFree marksGrammar) ["a", "$"] = .ok schema ∧
        Algorithm.earley.compileTokens (.contextFree marksGrammar) ["a", "$"] = .ok schema' ∧
        Deduction.run ⟨.accumulate, none⟩ schema 20 = .ok o ∧
        Deduction.run ⟨.accumulate, none⟩ schema' 20 = .ok o' ∧
        o.isDerivable = false ∧ o'.isDerivable = true := by
  obtain ⟨schema, o, hschema, h⟩ :=
    exists_run_marks (a := .leftCorner) (w := ["a", "$"]) (by simp) (by simp)
  obtain ⟨schema', o', hschema', h'⟩ :=
    exists_run_marks (a := .earley) (w := ["a", "$"]) (by simp) (by simp)
  refine ⟨read_marksFile, by decide, by decide, schema, schema', o, o', hschema, hschema', h, h',
    ?_, ?_⟩
  · rw [← Bool.not_eq_true, isDerivable_iff_generates
      (GrammarFile.isWellFormed_of_readContextFree read_marksFile) (by decide) (by decide)
      (by decide) (by decide) hschema h]
    intro hgenerates
    -- the only production that is left has the mark in the first place
    obtain ⟨p, hp, -, hderives⟩ := exists_of_nonterminal_derives hgenerates
    rw [productions_unmarked_marksGrammar] at hp
    obtain rfl := List.mem_singleton.1 hp
    have heq := eq_of_derives_word (u := ["$", "a"]) hderives
    simp [word] at heq
  · refine (Earley.isDerivable_iff_generates (g := marksGrammar) hschema' h').2 ?_
    exact derives_of_production (p := ⟨"S", [.terminal "a", .terminal "$"]⟩)
      (by simp [marksGrammar]) (.refl _)

end DeductiveParsing.LeftCorner
