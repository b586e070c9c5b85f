/-
What the two ways of parsing with trees have in common.

* `TreeAdjoining.treeEarley_agrees`: parsing from the left finds a parse exactly if parsing from the
  bottom up does without the elementary trees that have an inner node without a nonterminal. So the
  latter finds one whenever the former does, and both agree if there are no such trees;
* `TreeAdjoining.exists_treeEarley_disagrees`: they need not agree if there are.
-/
import DeductiveParsing.Proofs.TreeAdjoining.Cyk
import DeductiveParsing.Proofs.TreeAdjoining.Earley.Recognition

namespace DeductiveParsing.TreeAdjoining

variable {W : Type} [Weight W] {g : Grammar}

/-- Parsing from the bottom up accepts a well-formed grammar, and its run ends. -/
lemma exists_schema_treeCyk (hg : g.IsWellFormed) (hfeet : g.HasLeafFeet) (hbinary : g.IsBinary)
    (tokens : List String) :
    ∃ schema : Schema W, Schema.treeCyk g tokens = .ok schema ∧
      ∃ fuel o, Deduction.run ⟨.accumulate, none⟩ schema fuel = .ok o := by
  obtain ⟨schema, hschema⟩ : ∃ schema : Schema W, Schema.treeCyk g tokens = .ok schema := by
    rw [Schema.treeCyk, Grammar.unbinarized?_eq_none_iff.2 hbinary]
    exact ⟨_, rfl⟩
  exact ⟨schema, hschema, Deduction.exists_run rfl rfl (TreeCyk.bounds hg hfeet hbinary hschema)⟩

/-- For every grammar that is read from a file, whose feet are leaves, whose nodes have at most two
children and which does not declare the letter for the empty string as a terminal, and for every
input: whenever a run of parsing from the left has ended, something is derivable exactly if
something is in the run of parsing from the bottom up with the elementary trees whose inner nodes
have nonterminals. If something is derivable, something is from the bottom up with all elementary
trees, and the converse holds if all inner nodes have nonterminals. -/
theorem treeEarley_agrees {file : String} (hread : GrammarFile.readTreeAdjoining file = .ok g)
    (hfeet : g.HasLeafFeet) (hbinary : g.IsBinary) (hepsilon : epsilon ∉ g.terminals)
    (tokens : List String) :
    ∃ walks spans declaredSpans : Schema W,
      Schema.treeEarley g tokens = .ok walks ∧ Schema.treeCyk g tokens = .ok spans ∧
      Schema.treeCyk g.declared tokens = .ok declaredSpans ∧
      (∃ fuel o, Deduction.run ⟨.accumulate, none⟩ spans fuel = .ok o) ∧
      (∃ fuel o, Deduction.run ⟨.accumulate, none⟩ declaredSpans fuel = .ok o) ∧
      ∀ (settings settings' settings'' : Settings) (fuel fuel' fuel'' : ℕ) (o o' o'' : Outcome W),
        Deduction.run settings walks fuel = .ok o →
        Deduction.run settings' spans fuel' = .ok o' →
        Deduction.run settings'' declaredSpans fuel'' = .ok o'' →
          o.isDerivable = o''.isDerivable ∧ (o.isDerivable = true → o'.isDerivable = true) ∧
          ((∀ named ∈ g.trees, named.2.Everywhere g.IsDeclared) →
            o.isDerivable = o'.isDerivable) := by
  have hg := GrammarFile.isWellFormed_of_read hread
  obtain ⟨walks, hwalks⟩ : ∃ walks : Schema W, Schema.treeEarley g tokens = .ok walks := ⟨_, rfl⟩
  obtain ⟨spans, hspans, hends⟩ := exists_schema_treeCyk (W := W) hg hfeet hbinary tokens
  obtain ⟨declaredSpans, hdeclared, hends'⟩ :=
    exists_schema_treeCyk (W := W) hg.declared hfeet.declared hbinary.declared tokens
  refine ⟨walks, spans, declaredSpans, hwalks, hspans, hdeclared, hends, hends', ?_⟩
  intro settings settings' settings'' fuel fuel' fuel'' o o' o'' hrun hrun' hrun''
  have hleft := TreeEarley.isDerivable_iff_declared hg hfeet hepsilon hwalks hrun
  have hup := TreeCyk.isDerivable_iff_of_run hg hfeet hbinary hspans hrun'
  have hup' : o''.isDerivable = true ↔ g.declared.Generates g.MayStay tokens :=
    TreeCyk.isDerivable_iff_of_run hg.declared hfeet.declared hbinary.declared hdeclared hrun''
  refine ⟨?_, fun hderivable => ?_, fun hall => ?_⟩
  · rw [Bool.eq_iff_iff, hleft, hup']
  · exact hup.2 (hg.generates_of_declared hfeet (hleft.1 hderivable))
  · rw [Bool.eq_iff_iff, hleft, hup, Grammar.declared_eq_self hall]

example : ∀ named ∈ bracketsGrammar.trees, named.2.Everywhere bracketsGrammar.IsDeclared := by
  decide

/-! ### An inner node without a nonterminal -/

/-- A file with a tree for each of two letters. There is an inner node in the second of them whose
label is not declared. -/
def undeclaredFile : String :=
  "N = \x7b\"S\"\x7d\nT = \x7b\"a\", \"b\"\x7d\nS = \"S\"\n" ++
    "I = \x7b\"α : (S a)\", \"γ : (S (B b))\"\x7d\n"

/-- The grammar in that file. -/
def undeclaredGrammar : Grammar :=
  ⟨["S"], ["a", "b"], "S",
    [("α", .branch "S" [.leaf "a"]), ("γ", .branch "S" [.branch "B" [.leaf "b"]])], []⟩

lemma read_undeclaredFile :
    GrammarFile.readTreeAdjoining undeclaredFile = .ok undeclaredGrammar := by
  decide +kernel

/-- The first tree is left. -/
lemma declared_undeclaredGrammar :
    undeclaredGrammar.declared =
      ⟨["S"], ["a", "b"], "S", [("α", .branch "S" [.leaf "a"])], []⟩ := by
  decide

/-- It generates the first letter. -/
lemma generates_declared_a :
    undeclaredGrammar.declared.Generates undeclaredGrammar.MayStay ["a"] := by
  rw [declared_undeclaredGrammar]
  exact ⟨"α", .branch "S" [.leaf "a"], .branch "S" [.leaf "a"], List.mem_cons_self, rfl,
    .inner (List.cons_ne_nil _ _)
      (.cons (.stay rfl (Or.inr (Or.inr (by decide)))) .nil), by decide⟩

/-- It does not generate the second letter. -/
lemma not_generates_declared_b :
    ¬undeclaredGrammar.declared.Generates undeclaredGrammar.MayStay ["b"] := by
  rw [declared_undeclaredGrammar]
  rintro ⟨name, alpha, u, hmem, -, h, hfrontier⟩
  obtain ⟨-, rfl⟩ := Prod.mk.inj (List.mem_singleton.1 hmem)
  cases h with
  | stay hchildless => cases hchildless
  | substitute hsite => cases hsite.1
  | inner _ hus =>
      cases hus with
      | cons hu hrest =>
          cases hrest
          cases hu with
          | stay => exact absurd hfrontier (by decide)
          | substitute hsite => simp [Grammar.IsSite, Tree.leaf] at hsite
          | inner hinner => exact hinner rfl
          | adjoin hinner => exact hinner rfl
  | adjoin _ _ hmem => cases hmem

/-- With the second tree the grammar generates the second letter. -/
lemma generates_b : undeclaredGrammar.Generates undeclaredGrammar.MayStay ["b"] := by
  have hlower : undeclaredGrammar.Derives undeclaredGrammar.MayStay
      (.branch "B" [.leaf "b"]) (.branch "B" [.leaf "b"]) :=
    .inner (List.cons_ne_nil _ _) (.cons (.stay rfl (Or.inr (Or.inr (by decide)))) .nil)
  exact ⟨"γ", .branch "S" [.branch "B" [.leaf "b"]], _, List.mem_cons_of_mem _ List.mem_cons_self,
    rfl, .inner (List.cons_ne_nil _ _) (.cons hlower .nil), by decide⟩

/-- Every tree has an anchor. -/
lemma acyclic_undeclaredGrammar : ∀ t, ¬Relation.TransGen undeclaredGrammar.LeadsTo t t :=
  Grammar.not_transGen_leadsTo_of_rank (fun _ => 0) (by decide)

/-- On the first letter all runs end with a parse. -/
theorem exists_treeEarley_agrees_undeclared :
    ∃ (walks spans declaredSpans : Schema Float) (fuel fuel' fuel'' : ℕ)
      (o o' o'' : Outcome Float),
      GrammarFile.readTreeAdjoining undeclaredFile = .ok undeclaredGrammar ∧
      undeclaredGrammar.HasLeafFeet ∧ undeclaredGrammar.IsBinary ∧
      epsilon ∉ undeclaredGrammar.terminals ∧
      Schema.treeEarley undeclaredGrammar ["a"] = .ok walks ∧
      Schema.treeCyk undeclaredGrammar ["a"] = .ok spans ∧
      Schema.treeCyk undeclaredGrammar.declared ["a"] = .ok declaredSpans ∧
      Deduction.run ⟨.accumulate, none⟩ walks fuel = .ok o ∧
      Deduction.run ⟨.accumulate, none⟩ spans fuel' = .ok o' ∧
      Deduction.run ⟨.accumulate, none⟩ declaredSpans fuel'' = .ok o'' ∧
      o.isDerivable = true ∧ o'.isDerivable = true ∧ o''.isDerivable = true := by
  have hg := GrammarFile.isWellFormed_of_read read_undeclaredFile
  have hfeet : undeclaredGrammar.HasLeafFeet := by decide
  have hbinary : undeclaredGrammar.IsBinary := by decide
  have hepsilon : epsilon ∉ undeclaredGrammar.terminals := by decide
  obtain ⟨walks, spans, declaredSpans, hwalks, hspans, hdeclared, ⟨fuel', o', hrun'⟩,
    ⟨fuel'', o'', hrun''⟩, hagrees⟩ :=
    treeEarley_agrees (W := Float) read_undeclaredFile hfeet hbinary hepsilon ["a"]
  obtain ⟨fuel, o, hrun⟩ :=
    TreeEarley.exists_run_of_acyclic hg hfeet acyclic_undeclaredGrammar hwalks
  obtain ⟨hsame, hfound, -⟩ := hagrees _ _ _ _ _ _ _ _ _ hrun hrun' hrun''
  have hderivable : o''.isDerivable = true :=
    (TreeCyk.isDerivable_iff_of_run hg.declared hfeet.declared hbinary.declared hdeclared
      hrun'').2 generates_declared_a
  exact ⟨walks, spans, declaredSpans, fuel, fuel', fuel'', o, o', o'', read_undeclaredFile, hfeet,
    hbinary, hepsilon, hwalks, hspans, hdeclared, hrun, hrun', hrun'', hsame.trans hderivable,
    hfound (hsame.trans hderivable), hderivable⟩

/-- On the second letter the run from the bottom up ends with a parse and the one from the left
without. -/
theorem exists_treeEarley_disagrees :
    ∃ (walks spans : Schema Float) (fuel fuel' : ℕ) (o o' : Outcome Float),
      GrammarFile.readTreeAdjoining undeclaredFile = .ok undeclaredGrammar ∧
      undeclaredGrammar.IsBinary ∧ undeclaredGrammar.HasLeafFeet ∧
      epsilon ∉ undeclaredGrammar.nonterminals ∧ epsilon ∉ undeclaredGrammar.terminals ∧
      Schema.treeEarley undeclaredGrammar ["b"] = .ok walks ∧
      Schema.treeCyk undeclaredGrammar ["b"] = .ok spans ∧
      Deduction.run ⟨.accumulate, none⟩ walks fuel = .ok o ∧
      Deduction.run ⟨.accumulate, none⟩ spans fuel' = .ok o' ∧
      o.isDerivable = false ∧ o'.isDerivable = true := by
  have hg := GrammarFile.isWellFormed_of_read read_undeclaredFile
  have hfeet : undeclaredGrammar.HasLeafFeet := by decide
  have hbinary : undeclaredGrammar.IsBinary := by decide
  have hepsilon : epsilon ∉ undeclaredGrammar.terminals := by decide
  obtain ⟨walks, hwalks⟩ : ∃ walks : Schema Float,
      Schema.treeEarley undeclaredGrammar ["b"] = .ok walks := ⟨_, rfl⟩
  obtain ⟨spans, hspans, fuel', o', hrun'⟩ :=
    exists_schema_treeCyk (W := Float) hg hfeet hbinary ["b"]
  obtain ⟨fuel, o, hrun⟩ :=
    TreeEarley.exists_run_of_acyclic hg hfeet acyclic_undeclaredGrammar hwalks
  have hleft := TreeEarley.isDerivable_iff_declared hg hfeet hepsilon hwalks hrun
  have hup := TreeCyk.isDerivable_iff_of_run hg hfeet hbinary hspans hrun'
  exact ⟨walks, spans, fuel, fuel', o, o', read_undeclaredFile, hbinary, hfeet, by decide, hepsilon,
    hwalks, hspans, hrun, hrun', Bool.eq_false_iff.2 fun h => not_generates_declared_b (hleft.1 h),
    hup.2 generates_b⟩

end DeductiveParsing.TreeAdjoining
