/-
Inputs that contain declared nonterminals.

* `not_isDerivable_of_mem_nonterminals`: the algorithms that tell terminals from nonterminals find
  no derivation for such an input;
* `isDerivable_start`: those that compare names take the start symbol for a derivation of itself;
* `isDerivable_nonterminal_input`: both.
-/
import DeductiveParsing.Algorithm
import DeductiveParsing.Proofs.ContextFree.EarleyForests
import DeductiveParsing.Proofs.Cyk.Forests
import DeductiveParsing.Proofs.Cyk.Recognition
import DeductiveParsing.Proofs.LeftCorner.Recognition
import DeductiveParsing.Proofs.Lr.Recognition
import DeductiveParsing.Proofs.ShiftReduce.Recognition
import DeductiveParsing.Proofs.TopDown.Termination
import DeductiveParsing.Proofs.Unger.Termination

namespace DeductiveParsing

open ContextFree Deduction

variable {W : Type} [Weight W] {g : Grammar} {tokens : List String} {schema : Schema W}
  {settings : Settings} {fuel : ℕ} {o : Outcome W}

/-- What such algorithms derive, the start symbol derives, and that has no nonterminals in it. -/
lemma not_isDerivable_of_mem_nonterminals (hg : g.IsWellFormed) {a : Algorithm}
    (ha : a ∈ [Algorithm.earley, .cyk, .cykExtended, .lr])
    (htokens : ∃ b ∈ tokens, b ∈ g.nonterminals)
    (hschema : a.compileTokens (.contextFree g) tokens = .ok schema)
    (h : run settings schema fuel = .ok o) : o.isDerivable = false := by
  obtain ⟨b, hb, hmem⟩ := htokens
  rw [← Bool.not_eq_true]
  intro ho
  refine hg.not_mem_of_generates ?_ b hb hmem
  simp only [List.mem_cons, List.not_mem_nil, or_false] at ha
  rcases ha with rfl | rfl | rfl | rfl
  · exact Earley.generates_of_isDerivable hschema h ho
  · exact (Cyk.isNormalSchema_cyk hschema).generates_of_isDerivable h ho
  · exact (Cyk.isNormalSchema_cykExtended hschema).generates_of_isDerivable h ho
  · exact (Lr.isDerivable_iff_of_run hschema h).1 ho

section Start

variable (hpolicy : settings.policy = .accumulate) (h : run settings schema fuel = .ok o)
include hpolicy h

/-- The start symbol is scanned. -/
lemma isDerivable_topDown_start (hschema : Schema.topDown g [g.start] = .ok schema) :
    o.isDerivable = true := by
  obtain rfl := TopDown.schema_eq hschema
  refine isDerivable_of_mem_axioms hpolicy h List.mem_cons_self List.mem_cons_self
    (.topDown (.scan [g.start])) List.mem_cons_self List.mem_cons_self fun y hy => ?_
  have htoken : [g.start][0]? = some g.start := rfl
  have hfire := TopDown.fire_scan hy htoken
  exact ⟨_, Rule.fire?_eq_some.2 ⟨rfl, hfire⟩, _, List.mem_cons_self, rfl⟩

/-- The start symbol is shifted. -/
lemma isDerivable_shiftReduce_start (hschema : Schema.shiftReduce g [g.start] = .ok schema) :
    o.isDerivable = true := by
  obtain ⟨-, -, hok⟩ := bind_eq_ok.1 hschema
  obtain rfl := Except.ok.inj hok
  refine isDerivable_of_mem_axioms hpolicy h List.mem_cons_self List.mem_cons_self
    (.shiftReduce (.shift [g.start])) List.mem_cons_self List.mem_cons_self fun y hy => ?_
  have hform : y.form = [.sequence [], .index 0] := hy
  have hfire : (Rule.shiftReduce (.shift [g.start])).fire? [y] =
      some ⟨"shift " ++ g.start, [.ofForm [.sequence [g.start], .index 1]]⟩ := by
    simp [Rule.fire?, Rule.arity, ShiftReduceRule.arity, Rule.fire, ShiftReduceRule.fire,
      Item.sequence?, Item.index?, Item.field?, hform, Firing.one]
  exact ⟨_, hfire, _, List.mem_cons_self, rfl⟩

omit hpolicy in
/-- The start symbol is removed, unless it is the mark between stacks. -/
lemma isDerivable_leftCorner_start (hmark : g.start ≠ LeftCornerRule.mark)
    (hschema : Schema.leftCorner g [g.start] = .ok schema) : o.isDerivable = true :=
  (LeftCorner.isDerivable_iff hschema h).2 ⟨hmark, .refl _⟩

/-- The question about the start symbol is answered by the token. -/
lemma isDerivable_unger_start (hschema : Schema.unger g [g.start] = .ok schema) :
    o.isDerivable = true := by
  obtain ⟨-, -, hok⟩ := bind_eq_ok.1 hschema
  obtain ⟨-, -, hok⟩ := bind_eq_ok.1 hok
  obtain rfl := Except.ok.inj hok
  refine isDerivable_of_mem_axioms hpolicy h List.mem_cons_self List.mem_cons_self
    (.unger (.scan [g.start])) List.mem_cons_self List.mem_cons_self fun y hy => ?_
  have hform : y.form = [.symbol (UngerRule.asked g.start), .index 0, .index 1] := hy
  have hasked : UngerRule.askedName? (UngerRule.asked g.start) = some g.start := by
    simp [UngerRule.askedName?, UngerRule.asked]
  have hfire : (Rule.unger (.scan [g.start])).fire? [y] =
      some ⟨"scan " ++ g.start, [UngerRule.item (UngerRule.answered g.start) 0 1]⟩ := by
    simp [Rule.fire?, Rule.arity, UngerRule.arity, Rule.fire, UngerRule.fire, Item.symbol?,
      Item.index?, Item.field?, hform, hasked, Firing.one]
  exact ⟨_, hfire, _, List.mem_cons_self, rfl⟩

omit hpolicy in
/-- The item of the token is that of the start symbol over the whole input. -/
lemma isDerivable_cykGeneral_start (hschema : Schema.cykGeneral g [g.start] = .ok schema) :
    o.isDerivable = true := by
  obtain ⟨t, ht, rfl⟩ := run_eq_ok h
  obtain ⟨a, ha, hx⟩ := (Cyk.mem_axioms_cykGeneral hschema).2 (.token (i := 0) rfl)
  have hmem := mem_forms_of_mem_axioms ht ha hx
  obtain rfl := Except.ok.inj hschema
  exact (isDerivable_ofChart_iff (consistent_of_finalState ht).1.indexed _).2
    ⟨Schema.wholeSpan g.start [g.start], List.mem_cons_self, hmem⟩

end Start

/-- A token that is the start symbol is taken for a derivation of it. -/
lemma isDerivable_start {a : Algorithm}
    (ha : a ∈ [Algorithm.topDown, .shiftReduce, .leftCorner, .unger, .cykGeneral])
    (hmark : a = .leftCorner → g.start ≠ LeftCornerRule.mark)
    (hschema : a.compileTokens (.contextFree g) [g.start] = .ok schema) {limit : Option ℕ}
    (h : run ⟨a.policy, limit⟩ schema fuel = .ok o) : o.isDerivable = true := by
  simp only [List.mem_cons, List.not_mem_nil, or_false] at ha
  rcases ha with rfl | rfl | rfl | rfl | rfl
  · exact isDerivable_topDown_start rfl h hschema
  · exact isDerivable_shiftReduce_start rfl h hschema
  · exact isDerivable_leftCorner_start h (hmark rfl) hschema
  · exact isDerivable_unger_start rfl h hschema
  · exact isDerivable_cykGeneral_start h hschema

/-- For every grammar that is read from a file: Earley parsing, parsing by spans for normal forms
and table-driven parsing find nothing derivable in an input that contains a declared nonterminal.
The other algorithms do not tell a token from a nonterminal of its name: they find the input that
consists of the start symbol derivable. -/
theorem isDerivable_nonterminal_input {file : String}
    (hread : GrammarFile.readContextFree file = .ok g) :
    (∀ a ∈ [Algorithm.earley, .cyk, .cykExtended, .lr], ∀ tokens : List String,
      (∃ b ∈ tokens, b ∈ g.nonterminals) → ∀ schema : Schema W,
        a.compileTokens (.contextFree g) tokens = .ok schema → ∀ settings fuel o,
          run settings schema fuel = .ok o → o.isDerivable = false) ∧
    ∀ a ∈ [Algorithm.topDown, .shiftReduce, .leftCorner, .unger, .cykGeneral],
      (a = .leftCorner → g.start ≠ LeftCornerRule.mark) → ∀ schema : Schema W,
        a.compileTokens (.contextFree g) [g.start] = .ok schema → ∀ limit fuel o,
          run ⟨a.policy, limit⟩ schema fuel = .ok o → o.isDerivable = true := by
  have hg := GrammarFile.isWellFormed_of_readContextFree hread
  constructor
  · intro a ha tokens htokens schema hschema settings fuel o h
    exact not_isDerivable_of_mem_nonterminals hg ha htokens hschema h
  · intro a ha hmark schema hschema limit fuel o h
    exact isDerivable_start ha hmark hschema h

/-- A file with a grammar of one letter. -/
def letterFile : String :=
  "N = \x7b\"S\"\x7d\nT = \x7b\"a\"\x7d\nS = \"S\"\nP = \x7b\"S -> a\"\x7d\n"

/-- The grammar in that file. -/
def letterGrammar : Grammar := ⟨["S"], ["a"], "S", [⟨"S", [.terminal "a"]⟩]⟩

lemma read_letterFile : GrammarFile.readContextFree letterFile = .ok letterGrammar := by
  decide +kernel

/-- On the start symbol alone, a run of Earley parsing ends without a derivation. -/
theorem isDerivable_nonterminal_input_letter :
    GrammarFile.readContextFree letterFile = .ok letterGrammar ∧
      ∃ (schema : Schema Float) (fuel : ℕ) (o : Outcome Float),
        Algorithm.earley.compileTokens (.contextFree letterGrammar) ["S"] = .ok schema ∧
        run ⟨.accumulate, none⟩ schema fuel = .ok o ∧ o.isDerivable = false := by
  have hg := GrammarFile.isWellFormed_of_readContextFree read_letterFile
  obtain ⟨schema, hschema⟩ : ∃ schema : Schema Float,
      Schema.earley letterGrammar ["S"] = .ok schema := ⟨_, rfl⟩
  obtain ⟨fuel, o, h⟩ : ∃ fuel o, run ⟨.accumulate, none⟩ schema fuel = .ok o :=
    exists_run_of_composes rfl rfl (Earley.composes hg hschema)
  have hnone := (isDerivable_nonterminal_input (W := Float) read_letterFile).1 .earley
    List.mem_cons_self ["S"] ⟨"S", by decide, by decide⟩ schema hschema _ _ _ h
  exact ⟨read_letterFile, schema, fuel, o, hschema, h, hnone⟩

/-- On the start symbol alone, runs of the algorithms that compare names end. -/
lemma exists_run_letter {a : Algorithm}
    (ha : a ∈ [Algorithm.topDown, .shiftReduce, .leftCorner, .unger, .cykGeneral]) :
    ∃ (schema : Schema Float) (fuel : ℕ) (o : Outcome Float),
      a.compileTokens (.contextFree letterGrammar) ["S"] = .ok schema ∧
        run ⟨a.policy, none⟩ schema fuel = .ok o := by
  simp only [List.mem_cons, List.not_mem_nil, or_false] at ha
  obtain ⟨schema, hschema⟩ : ∃ schema : Schema Float,
      a.compileTokens (.contextFree letterGrammar) ["S"] = .ok schema := by
    rcases ha with rfl | rfl | rfl | rfl | rfl <;> exact exists_of_isOk (by cbv)
  suffices hends : ∃ fuel o, run ⟨a.policy, none⟩ schema fuel = .ok o by
    obtain ⟨fuel, o, h⟩ := hends
    exact ⟨schema, fuel, o, hschema, h⟩
  have hg := GrammarFile.isWellFormed_of_readContextFree read_letterFile
  have hacyclic := TopDown.not_transGen_leadsTo_of_rank (g := letterGrammar)
    (fun a => if a = "S" then 1 else 0) (by decide)
  rcases ha with rfl | rfl | rfl | rfl | rfl
  · have hschema : Schema.topDown letterGrammar ["S"] = .ok schema := hschema
    exact exists_run rfl rfl (TopDown.bounds hschema hacyclic)
  · have hschema : Schema.shiftReduce letterGrammar ["S"] = .ok schema := hschema
    exact exists_run rfl rfl (ShiftReduce.bounds hschema)
  · have hschema : Schema.leftCorner letterGrammar ["S"] = .ok schema := hschema
    exact exists_run rfl rfl (LeftCorner.bounds (by decide) hschema)
  · have hschema : Schema.unger letterGrammar ["S"] = .ok schema := hschema
    exact exists_run rfl rfl (Unger.bounds hschema)
  · exact exists_run_of_composes rfl rfl ((Cyk.isSpanSchema_cykGeneral hschema).composes hg)

/-- On the start symbol alone, which is a declared nonterminal, runs of five algorithms end with a
derivation. -/
theorem exists_isDerivable_nonterminal_letter :
    GrammarFile.readContextFree letterFile = .ok letterGrammar ∧
      "S" ∈ letterGrammar.nonterminals ∧
      ∀ a ∈ [Algorithm.topDown, .shiftReduce, .leftCorner, .unger, .cykGeneral],
        ∃ (schema : Schema Float) (fuel : ℕ) (o : Outcome Float),
          a.compileTokens (.contextFree letterGrammar) ["S"] = .ok schema ∧
          run ⟨a.policy, none⟩ schema fuel = .ok o ∧ o.isDerivable = true := by
  refine ⟨read_letterFile, by decide, fun a ha => ?_⟩
  obtain ⟨schema, fuel, o, hschema, h⟩ := exists_run_letter ha
  exact ⟨schema, fuel, o, hschema, h, isDerivable_start ha (fun _ => by decide) hschema h⟩

end DeductiveParsing
