/-
Trees reach every consequence.

* `Algorithm.readsSpans_of_compile`: the schemas of all algorithms are schemas of parsing by spans or
  have none of its rules;
* `Deduction.trees_of_consequence`: in a run that keeps all derivations, every tree of what a rule
  concludes at the end is in the forest of its form, or contains a tree of that forest.
-/
import DeductiveParsing.Algorithm
import DeductiveParsing.Proofs.Cyk.ParseTrees
import DeductiveParsing.Proofs.GrammarFile.ContextFree
import DeductiveParsing.Proofs.Inference.Directed

namespace DeductiveParsing

open Cyk (IsSpan)
open Deduction (bind_eq_ok)

variable {W : Type} [Weight W] {tokens : List String} {schema : Schema W}

/-! ### Schemas of parsing by spans -/

omit [Weight W] in
lemma Cyk.IsSpanSchema.readsSpans {g : ContextFree.Grammar}
    (h : Cyk.IsSpanSchema g tokens schema) : (∀ rule ∈ schema.rules, rule.ReadsSpans) ∧
      ∀ b ∈ schema.axioms, ∀ x ∈ b.items, IsSpan x := by
  refine ⟨fun rule hrule => ?_, fun b hb x hx => ?_⟩
  · obtain ⟨r, rfl, -⟩ := h.rules rule hrule
    trivial
  · rcases h.axioms b hb x hx with hlexical | hmark
    · exact hlexical.fits.isSpan
    · exact (hmark.fits (g := g)).isSpan

lemma isSpan_weightedFact {p : Weighted.Production W} {i j : ℕ} {w : W} :
    ∀ x ∈ (Schema.weightedFact p i j w).items, IsSpan x :=
  fun _ hx => List.mem_singleton.1 hx ▸ ⟨p.production.lhs, i, j, rfl⟩

lemma isSpan_probableAxioms {p : Weighted.Production W} {b : Axiom W}
    (hb : b ∈ Schema.probableAxioms tokens p) : ∀ x ∈ b.items, IsSpan x := by
  rw [Schema.probableAxioms] at hb
  split at hb
  · obtain ⟨i, -, rfl⟩ := List.mem_map.1 hb
    exact isSpan_weightedFact
  · split at hb
    · exact List.mem_singleton.1 hb ▸ isSpan_weightedFact
    · cases hb

lemma isSpan_costAxioms {e : Weighted.Estimates W} {p : Weighted.Production W} {b : Axiom W}
    (hb : b ∈ Schema.costAxioms e tokens p) : ∀ x ∈ b.items, IsSpan x := by
  simp only [Schema.costAxioms] at hb
  split at hb
  · obtain ⟨i, -, hb⟩ := List.mem_filterMap.1 hb
    obtain ⟨w, -, rfl⟩ := Option.map_eq_some_iff.1 hb
    exact isSpan_weightedFact
  · split at hb
    · exact List.mem_singleton.1 hb ▸ isSpan_weightedFact
    · cases hb

namespace Algorithm

/-- The schema of an algorithm is one of parsing by spans, or it has none of the rules of that. -/
lemma readsSpans_of_compile {a : Algorithm} {g : FormalGrammar W}
    (hschema : a.compileTokens g tokens = .ok schema) :
    (∀ rule ∈ schema.rules, ¬rule.ReadsSpans) ∨
      ((∀ rule ∈ schema.rules, rule.ReadsSpans) ∧
        ∀ b ∈ schema.axioms, ∀ x ∈ b.items, IsSpan x) := by
  cases a with
  | topDown =>
      obtain ⟨cf, -, h⟩ := bind_eq_ok.1 hschema
      obtain ⟨-, -, h⟩ := bind_eq_ok.1 h
      obtain rfl := Except.ok.inj h
      exact Or.inl (by simp [Schema.make, Rule.ReadsSpans])
  | shiftReduce =>
      obtain ⟨cf, -, h⟩ := bind_eq_ok.1 hschema
      obtain ⟨-, -, h⟩ := bind_eq_ok.1 h
      obtain rfl := Except.ok.inj h
      exact Or.inl (by simp [Schema.make, Rule.ReadsSpans])
  | earley =>
      obtain ⟨cf, -, h⟩ := bind_eq_ok.1 hschema
      obtain rfl := Except.ok.inj h
      exact Or.inl (by simp [Schema.make, Rule.ReadsSpans])
  | leftCorner =>
      obtain ⟨cf, -, h⟩ := bind_eq_ok.1 hschema
      obtain ⟨-, -, h⟩ := bind_eq_ok.1 h
      obtain ⟨-, -, h⟩ := bind_eq_ok.1 h
      obtain rfl := Except.ok.inj h
      refine Or.inl fun rule hrule => ?_
      rcases List.mem_append.1 hrule with hrule | hrule
      · obtain ⟨p, -, rfl⟩ := List.mem_map.1 hrule
        exact not_false
      · rcases List.mem_pair.1 hrule with rfl | rfl <;> exact not_false
  | unger =>
      obtain ⟨cf, -, h⟩ := bind_eq_ok.1 hschema
      obtain ⟨-, -, h⟩ := bind_eq_ok.1 h
      obtain ⟨-, -, h⟩ := bind_eq_ok.1 h
      obtain rfl := Except.ok.inj h
      refine Or.inl fun rule hrule => ?_
      rcases List.mem_cons.1 hrule with rfl | hrule
      · exact not_false
      · obtain ⟨p, -, hrule⟩ := List.mem_flatMap.1 hrule
        rcases List.mem_pair.1 hrule with rfl | rfl <;> exact not_false
  | lr =>
      obtain ⟨cf, -, h⟩ := bind_eq_ok.1 hschema
      obtain ⟨-, -, h⟩ := bind_eq_ok.1 h
      obtain rfl := Except.ok.inj h
      exact Or.inl (by simp [Schema.make, Rule.ReadsSpans])
  | treeCyk =>
      rw [compileTokens, Schema.treeCyk] at hschema
      split at hschema
      · cases hschema
      · obtain rfl := Except.ok.inj hschema
        refine Or.inl fun rule hrule => ?_
        simp only [Schema.make, List.mem_append, List.mem_map, List.mem_cons, List.not_mem_nil,
          or_false] at hrule
        rcases hrule with ((rfl | rfl | rfl) | ⟨_, -, rfl⟩) | rfl <;> exact not_false
  | treeEarley =>
      obtain rfl := Except.ok.inj hschema
      refine Or.inl fun rule hrule => ?_
      obtain ⟨r, -, rfl⟩ := List.mem_map.1 hrule
      exact not_false
  | cyk =>
      obtain ⟨cf, -, h⟩ := bind_eq_ok.1 hschema
      exact Or.inr (Cyk.isNormalSchema_cyk h).toIsSpanSchema.readsSpans
  | cykExtended =>
      obtain ⟨cf, -, h⟩ := bind_eq_ok.1 hschema
      exact Or.inr (Cyk.isNormalSchema_cykExtended h).toIsSpanSchema.readsSpans
  | cykGeneral =>
      obtain ⟨cf, -, h⟩ := bind_eq_ok.1 hschema
      exact Or.inr (Cyk.isSpanSchema_cykGeneral h).readsSpans
  | weightedCyk =>
      obtain ⟨wg, -, h⟩ := bind_eq_ok.1 hschema
      obtain ⟨-, -, h⟩ := bind_eq_ok.1 h
      obtain rfl := Except.ok.inj h
      refine Or.inr ⟨fun rule hrule => ?_, fun b hb => ?_⟩
      · obtain ⟨p, -, rfl⟩ := List.mem_map.1 hrule
        trivial
      obtain ⟨p, -, hb⟩ := List.mem_flatMap.1 hb
      exact isSpan_probableAxioms hb
  | weightedAStar =>
      obtain ⟨wg, -, h⟩ := bind_eq_ok.1 hschema
      obtain ⟨-, -, h⟩ := bind_eq_ok.1 h
      obtain rfl := Except.ok.inj h
      refine Or.inr ⟨fun rule hrule => ?_, fun b hb => ?_⟩
      · obtain ⟨p, -, rfl⟩ := List.mem_map.1 hrule
        trivial
      obtain ⟨p, -, hb⟩ := List.mem_flatMap.1 hb
      exact isSpan_costAxioms hb

/-- In the chart of a run of parsing by spans all items are spans. -/
lemma isSpan_of_compile {a : Algorithm} {g : FormalGrammar W}
    (hschema : a.compileTokens g tokens = .ok schema) {settings : Settings} {fuel : ℕ}
    {s : Deduction.State W} (hs : Deduction.finalState settings schema fuel = .ok s)
    {rule : Rule W} (hrule : rule ∈ schema.rules) (hspans : rule.ReadsSpans) :
    ∀ x ∈ s.chart.items, IsSpan x := by
  rcases readsSpans_of_compile hschema with hnone | ⟨hrules, haxioms⟩
  · exact absurd hspans (hnone rule hrule)
  · have hpreserves : schema.Preserves IsSpan :=
      ⟨haxioms, fun r hr _ _ _ hf => Rule.isSpan_of_fire (hrules r hr) hf, fun _ _ hx _ _ => hx⟩
    exact Deduction.holds_of_finalState hpreserves hs

end Algorithm

/-! ### The end of a run -/

namespace Deduction

/-- For every algorithm, every grammar and every input: when a run that keeps all derivations has
ended, take any rule of the schema and any choice of different positions of the chart. Every tree
of what the rule concludes from the items there is in the forest of the item with that form, or
contains one of the trees of that forest. So trees that an antecedent gains after a rule has been
tried on it get into the consequences as well. -/
theorem trees_of_consequence {a : Algorithm} {g : FormalGrammar W} {input : String}
    (hschema : a.compile g input = .ok schema) {settings : Settings}
    (hpolicy : settings.policy = .accumulate) {fuel : ℕ} {o : Outcome W}
    (h : run settings schema fuel = .ok o) {rule : Rule W} (hrule : rule ∈ schema.rules)
    {positions : List ℕ} (hdistinct : positions.Nodup) {xs : List (Item W)}
    (hxs : positions.mapM o.chart.item? = some xs) {f : Firing W} (hf : rule.fire? xs = some f)
    {y : Item W} (hy : y ∈ f.items) {t : Tree} (ht : t ∈ y.trees) :
    ∃ i x, o.chart.position? y = some i ∧ o.chart.item? i = some x ∧ x.form = y.form ∧
      (t ∈ x.trees ∨ ∃ u ∈ x.trees, t.hasProperSubtree u = true) := by
  obtain ⟨s, hs, rfl⟩ := run_eq_ok h
  have hindexed := (consistent_of_finalState hs).1.indexed
  rw [mapM_eq_some_iff] at hxs
  have hnodup := hindexed.nodup_forms hdistinct hxs
  have hitems : ∀ x ∈ xs, x ∈ s.chart.items := by
    intro x hx
    obtain ⟨i, -, hi⟩ := List.mem_map.1 (hxs ▸ List.mem_map_of_mem hx : some x ∈ _)
    exact ⟨i, hi⟩
  obtain ⟨ys, hperm, hkeeps⟩ := keeps_of_finalState hpolicy hs hrule (Rule.fire?_eq_some.1 hf).1
    hitems hnodup
  have hspans : rule.ReadsSpans → ∀ x ∈ xs, IsSpan x := fun hspans x hx =>
    Algorithm.isSpan_of_compile hschema hs hrule hspans x (hitems x hx)
  rcases Rule.fire?_perm hspans hperm hnodup hf with hf' | hnone
  · obtain ⟨x, ⟨i, hi⟩, hform, hall⟩ := hkeeps f hf' y hy
    have hposition : s.chart.position? y = some i :=
      hindexed.position?_eq_some.2 (by rw [Chart.form?, hi, ← hform]; rfl)
    exact ⟨i, x, hposition, hi, hform, Forest.excludes_iff.1 (hall t ht)⟩
  · rw [hnone y hy] at ht
    cases ht

/-- A file in which a letter is a part at once, and once more by a chain of names. -/
def lateFile : String :=
  "N = \x7b\"S\", \"X\", \"Y\", \"Z\"\x7d\nT = \x7b\"a\", \"b\"\x7d\nS = \"S\"\n" ++
    "P = \x7b\"S -> X b\", \"X -> a\", \"X -> Y\", \"Y -> Z\", \"Z -> a\"\x7d\n"

/-- The grammar in that file. -/
def lateGrammar : ContextFree.Grammar :=
  ⟨["S", "X", "Y", "Z"], ["a", "b"], "S", [⟨"S", [.nonterminal "X", .terminal "b"]⟩,
    ⟨"X", [.terminal "a"]⟩, ⟨"X", [.nonterminal "Y"]⟩, ⟨"Y", [.nonterminal "Z"]⟩,
    ⟨"Z", [.terminal "a"]⟩]⟩

lemma read_lateFile : GrammarFile.readContextFree lateFile = .ok lateGrammar := by
  decide +kernel

/-- The part that is found last. -/
def latePart : Tree := .above "X" [.above "Y" [.above "Z" [.leaf "a"]]]

lemma spells_latePart : lateGrammar.Spells [.nonterminal "X"] [latePart] ["a"] := by
  have hz : lateGrammar.Spells [.nonterminal "Z"] [.above "Z" [.leaf "a"]] ["a"] :=
    .singleton_node (p := ⟨"Z", [.terminal "a"]⟩) (by simp [lateGrammar]) (.leaf "a" .nil)
  have hy : lateGrammar.Spells [.nonterminal "Y"] [.above "Y" [.above "Z" [.leaf "a"]]] ["a"] :=
    .singleton_node (p := ⟨"Y", [.nonterminal "Z"]⟩) (by simp [lateGrammar]) hz
  exact .singleton_node (p := ⟨"X", [.nonterminal "Y"]⟩) (by simp [lateGrammar]) hy

/-- In the chart for two letters, the start symbol is concluded with the tree over the late part, and
that tree gets into the forest of the start symbol. -/
theorem exists_trees_of_consequence_late :
    ∃ (schema : Schema Float) (fuel : ℕ) (o : Outcome Float) (rule : Rule Float)
      (positions : List ℕ) (xs : List (Item Float)) (f : Firing Float) (y : Item Float),
        Algorithm.cykGeneral.compile (.contextFree lateGrammar) "a b" = .ok schema ∧
          run ⟨.accumulate, none⟩ schema fuel = .ok o ∧ rule ∈ schema.rules ∧ positions.Nodup ∧
            positions.mapM o.chart.item? = some xs ∧ rule.fire? xs = some f ∧ y ∈ f.items ∧
              .above "S" [latePart, .leaf "b"] ∈ y.trees ∧
                ∃ i x, o.chart.position? y = some i ∧ o.chart.item? i = some x ∧
                  x.form = y.form ∧ (.above "S" [latePart, .leaf "b"] ∈ x.trees ∨
                    ∃ u ∈ x.trees, (Tree.above "S" [latePart, .leaf "b"]).hasProperSubtree u) := by
  have hg := GrammarFile.isWellFormed_of_readContextFree read_lateFile
  have hlhs : ∀ p ∈ lateGrammar.productions, p.lhs ∈ lateGrammar.nonterminals := by decide
  have hempty : lateGrammar.hasEmptyProduction = false := by decide
  have hacyclic : lateGrammar.IsAcyclic :=
    .of_rank (fun a => ["Z", "Y", "X", "S"].idxOf a) (by simp [lateGrammar])
  have hwords : Text.wordsOf "a b" = ["a", "b"] := by cbv
  obtain ⟨schema, hschema⟩ : ∃ schema : Schema Float,
      Schema.cykGeneral lateGrammar ["a", "b"] = .ok schema := ⟨_, rfl⟩
  have hcompile : Algorithm.cykGeneral.compile (.contextFree lateGrammar) "a b" = .ok schema := by
    rw [Algorithm.compile, hwords]
    exact hschema
  obtain ⟨fuel, o, hrun⟩ : ∃ fuel o, run ⟨.accumulate, none⟩ schema fuel = .ok o :=
    exists_run_of_composes rfl rfl ((Cyk.isSpanSchema_cykGeneral hschema).composes hg)
  obtain ⟨s, hs, rfl⟩ := run_eq_ok hrun
  -- the spans of the late part and of the second letter
  have hspells : lateGrammar.Spells [.nonterminal "X", .terminal "b"] [latePart, .leaf "b"]
      ["a", "b"] := spells_latePart.append (.leaf "b" .nil)
  have hwhole : ["a", "b"] = ([] : List String) ++ ["a", "b"] ++ [] := rfl
  obtain ⟨xs, hxs, hchain, hpicked⟩ := Cyk.exists_chained_of_spells hg hlhs hempty hschema hacyclic
    rfl hs hspells hwhole
  obtain ⟨p, hp⟩ : ∃ p, p = (⟨"S", [.nonterminal "X", .terminal "b"]⟩ : Production) := ⟨_, rfl⟩
  have hmem : p ∈ lateGrammar.productions := by simp [hp, lateGrammar]
  have hsound : ∀ x ∈ xs, Cyk.IsSound lateGrammar ["a", "b"] x := fun x hx =>
    holds_of_finalState (Cyk.preserves_isSound hg hlhs hempty hschema) hs x (hxs x hx)
  have hchain' : Cyk.Chained 0 xs p.rhs 2 := hp ▸ hchain
  have hpicked' : Cyk.Picked xs p.rhs [latePart, .leaf "b"] := hp ▸ hpicked
  have hne : p.rhs ≠ [] := by simp [hp]
  obtain ⟨f, hf, hy⟩ := Cyk.exists_fire_general hg hmem hne hsound hchain' (.refl xs)
  have htree : .above "S" [latePart, .leaf "b"] ∈ Forest.fill (Tree.ofProduction p)
      (CykRule.nonterminalForests xs p.rhs) :=
    (Cyk.mem_fill_ofProduction_iff hg hmem hchain' fun x hx => (hsound x hx).carriesTrees).2
      ⟨_, hpicked', by rw [hp]⟩
  have hnodup : (xs.map Item.form).Nodup := List.pairwise_map.2
    ((hchain'.pairwise_precedes (hg.declares hmem) hsound).imp Cyk.Precedes.form_ne)
  obtain ⟨positions, hdistinct, hpositions⟩ := Chart.exists_positions_of_mem_items hxs hnodup
  have hpositions' : positions.mapM (Outcome.ofChart schema.goals s.chart).chart.item? = some xs :=
    mapM_eq_some_iff.2 hpositions
  have hrule : Rule.cyk (.general p) ∈ schema.rules := by
    obtain rfl := Except.ok.inj hschema
    exact List.mem_map_of_mem hmem
  have hfire : (Rule.cyk (W := Float) (.general p)).fire? xs = some f := by
    refine Rule.fire?_eq_some.2 ⟨hchain'.length_eq.trans ?_, hf⟩
    rw [hp]
    rfl
  exact ⟨schema, fuel, _, _, positions, xs, f, _, hcompile, hrun, hrule, hdistinct, hpositions',
    hfire, hy, htree, trees_of_consequence hcompile rfl hrun hrule hdistinct hpositions' hfire hy
      htree⟩

end Deduction

end DeductiveParsing
