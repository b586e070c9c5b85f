/-
What parsing by spans in general finds.

* `Cyk.isClosed_namedForms`: rules conclude spans of names that derive by name what they cover;
* `Cyk.exists_chained_of_unfolds`: they conclude all of them, if no name that derives the empty
  string stands twice on a right-hand side;
* `Cyk.cykGeneral_chart`: what is in the chart at the end of a run.
-/
import DeductiveParsing.Algorithm
import DeductiveParsing.Proofs.ContextFree.Names
import DeductiveParsing.Proofs.Cyk.Forests
import DeductiveParsing.Proofs.Cyk.Spans
import DeductiveParsing.Proofs.GrammarFile.ContextFree

namespace DeductiveParsing.Cyk

open ContextFree Grammar Rewriting

variable {W : Type} {g : Grammar} {tokens names w before rest : List String} {p : Production}
  {xs : List (Item W)} {schema : Schema W} {symbols : List Symbol} {name : String}
  {i l place stop : ℕ}

/-! ### What is concluded is derived -/

/-- The forms of spans within the input whose names, the one for the empty string apart, derive by
name what they cover. -/
def namedForms (g : Grammar) (tokens : List String) : Set Form :=
  spanForms fun name i l => i + l ≤ tokens.length ∧
    (name ≠ epsilon → g.DerivesNames [name] (span tokens i (i + l)))

lemma form_mem_namedForms : form name i l ∈ namedForms g tokens ↔
    i + l ≤ tokens.length ∧ (name ≠ epsilon → g.DerivesNames [name] (span tokens i (i + l))) :=
  form_mem_spanForms

lemma IsMark.form_mem {x : Item W} (h : IsMark tokens x) : x.form ∈ namedForms g tokens := by
  cases h with
  | token htoken =>
      refine form_mem_namedForms.2 ⟨(List.getElem?_eq_some_iff.1 htoken).1, fun _ => ?_⟩
      rw [span_succ htoken]
      exact .refl _
  | empty hi => exact form_mem_namedForms.2 ⟨hi, fun hne => absurd rfl hne⟩

/-- Names derive what the spans that carry them cover. -/
lemma Chained.derivesNames (h : Chained place xs symbols stop)
    (hsymbols : ∀ s ∈ symbols, s.name ≠ epsilon)
    (hxs : ∀ x ∈ xs, x.form ∈ namedForms g tokens) :
    g.DerivesNames (symbols.map Symbol.name) (span tokens place stop) := by
  induction h with
  | nil =>
      rw [span_self]
      exact .refl []
  | @cons place l stop x s xs symbols hx h ih =>
      obtain ⟨hs, hrest⟩ := List.forall_mem_cons.1 hsymbols
      have hfirst : g.DerivesNames [s.name] (span tokens place (place + l)) :=
        (form_mem_namedForms.1 (hx ▸ hxs x List.mem_cons_self)).2 hs
      have hbehind := ih hrest fun y hy => hxs y (List.mem_cons_of_mem _ hy)
      rw [← span_append (Nat.le_add_right place l) h.le]
      exact hfirst.append hbehind

variable [Weight W] {F : Set Form}

lemma isClosed_namedForms (hg : g.IsWellFormed)
    (hschema : Schema.cykGeneral g tokens = .ok schema) :
    schema.IsClosed (namedForms g tokens) := by
  refine ⟨fun a ha x hx => ((mem_axioms_cykGeneral hschema).1 ⟨a, ha, hx⟩).form_mem,
    fun rule hrule xs f hxs _ hf y hy => ?_⟩
  have hspans : ∀ x ∈ xs, IsSpan x := isSpan_of_mem_spanForms hxs
  have hroom : ∀ x ∈ xs, ∀ name i l, x.form = form name i l → i + l ≤ tokens.length :=
    fun x hx name i l hform => (form_mem_namedForms.1 (hform ▸ hxs x hx)).1
  obtain ⟨p, hp, hconcludes⟩ := (isSpanSchema_cykGeneral hschema).concludes hrule hspans hf hy
  obtain ⟨order, start, stop, hsub, hchain, hstop, hform⟩ := hconcludes.exists_chained hroom
  have hle : start + (stop - start) = stop := Nat.add_sub_of_le hchain.le
  rw [hform]
  refine form_mem_namedForms.2 ⟨hle.trans_le hstop, fun _ => ?_⟩
  rw [hle]
  exact derivesNames_of_production hp
    (hchain.derivesNames (fun s hs => (hg.named p hp s hs).1) fun x hx => hxs x (hsub x hx))

/-! ### What is derived is concluded -/

/-- An empty production is placed where the empty string is. -/
lemma mem_of_isEmpty (hF : schema.IsClosed F) (hmem : .cyk (.general p) ∈ schema.rules)
    (hrhs : p.rhs = []) (hplace : form epsilon i 0 ∈ F) : form p.lhs i 0 ∈ F := by
  have hfire : (Rule.cyk (W := W) (.general p)).fire? [Item.ofForm (form epsilon i 0)] =
      some ⟨CykRule.name (.general p), [CykRule.item p.lhs i 0 [Tree.ofProduction p]]⟩ := by
    refine Rule.fire?_eq_some.2 ⟨by simp [Rule.arity, CykRule.arity, hrhs], ?_⟩
    simp [Rule.fire, CykRule.fire, Production.isEmpty, hrhs, CykRule.placeEmpty, Item.symbol?,
      Item.index?, Item.field?, Item.ofForm, form, Firing.one]
  exact hF.mem_of_fire hmem [form epsilon i 0] (by simpa using hplace) (List.nodup_singleton _)
    hfire (List.mem_singleton_self _)

/-- A closed set contains the left-hand side of a production over different spans in a row for its
right-hand side, which may be none. -/
lemma mem_of_chained_rhs (hschema : Schema.cykGeneral g tokens = .ok schema)
    (hF : schema.IsClosed F) (hp : p ∈ g.productions) (h : Chained place xs p.rhs stop)
    (hstop : stop ≤ tokens.length) (hxs : ∀ x ∈ xs, x.form ∈ F)
    (hnodup : (xs.map Item.form).Nodup) : form p.lhs place (stop - place) ∈ F := by
  have hmem : .cyk (.general p) ∈ schema.rules := by
    obtain rfl := Except.ok.inj hschema
    exact List.mem_map_of_mem hp
  by_cases hrhs : p.rhs = []
  · rw [hrhs] at h
    cases h
    obtain ⟨a, ha, hx⟩ := (mem_axioms_cykGeneral hschema).2 (.empty hstop)
    rw [Nat.sub_self]
    exact mem_of_isEmpty hF hmem hrhs (hF.axioms_mem a ha _ hx)
  · exact mem_of_chained hF hmem trivial hrhs h hxs hnodup

/-- A closed set contains spans for names in a row that unfold to the tokens behind a place. Those
over the empty string are of names that derive it. -/
lemma exists_chained_of_unfolds (hschema : Schema.cykGeneral g tokens = .ok schema)
    (hF : schema.IsClosed F)
    (hempty : ∀ p ∈ g.productions, ∀ b, g.DerivesNames [b] [] → p.rhsNames.count b ≤ 1)
    (h : Unfolds g.ReplacesName names w) (hnames : names = symbols.map Symbol.name)
    (htokens : tokens = before ++ w ++ rest) :
    ∃ xs : List (Item W), (∀ x ∈ xs, x.form ∈ F) ∧
      (∀ x ∈ xs, ∀ name i, x.form = form name i 0 → g.DerivesNames [name] []) ∧
        Chained before.length xs symbols (before ++ w).length := by
  induction h generalizing before rest symbols with
  | nil =>
      obtain rfl := List.map_eq_nil_iff.1 hnames.symm
      exact ⟨[], nofun, nofun, by rw [List.append_nil]; exact .nil _⟩
  | @keep a names w _ ih =>
      obtain ⟨s, symbols, rfl, rfl, hsymbols⟩ := List.map_eq_cons_iff.1 hnames.symm
      have htoken : tokens[before.length]? = some s.name := by simp [htokens]
      obtain ⟨b, hb, hx⟩ := (mem_axioms_cykGeneral hschema).2 (.token htoken)
      have htokens' : tokens = (before ++ [s.name]) ++ w ++ rest := by simpa using htokens
      obtain ⟨xs, hxs, hnil, hchain⟩ := ih hsymbols.symm htokens'
      refine ⟨_ :: xs, List.forall_mem_cons.2 ⟨hF.axioms_mem b hb _ hx, hxs⟩,
        List.forall_mem_cons.2 ⟨fun name i hform => ?_, hnil⟩, .cons rfl ?_⟩
      · obtain ⟨-, -, hzero⟩ := form_injective hform
        cases hzero
      · simpa using hchain
  | @expand a rhs u names w ha hrhs _ ihrhs ihnames =>
      obtain ⟨s, symbols, rfl, hs, hsymbols⟩ := List.map_eq_cons_iff.1 hnames.symm
      obtain ⟨p, hp, rfl, rfl⟩ := ha
      have htokens₁ : tokens = before ++ u ++ (w ++ rest) := by simpa using htokens
      have htokens₂ : tokens = (before ++ u) ++ w ++ rest := by simpa using htokens
      obtain ⟨cs, hcs, hcsnil, hcschain⟩ := ihrhs rfl htokens₁
      obtain ⟨xs, hxs, hxsnil, hchain⟩ := ihnames hsymbols.symm htokens₂
      -- only names that derive the empty string have spans over it, and those stand there once
      have hnodup := hcschain.nodup_forms fun x hx name i hform =>
        hempty p hp name (hcsnil x hx name i hform)
      have hform := mem_of_chained_rhs hschema hF hp hcschain (by simp [htokens₁]) hcs hnodup
      rw [List.length_append, Nat.add_sub_cancel_left] at hform
      have hname : (Item.ofForm (W := W) (form p.lhs before.length u.length)).form =
          form s.name before.length u.length := by
        rw [hs]
        rfl
      refine ⟨.ofForm (form p.lhs before.length u.length) :: xs,
        List.forall_mem_cons.2 ⟨hform, hxs⟩,
        List.forall_mem_cons.2 ⟨fun name i heq => ?_, hxsnil⟩, .cons hname ?_⟩
      · obtain ⟨rfl, -, hnil⟩ := form_injective heq
        obtain rfl := List.length_eq_zero_iff.1 hnil
        exact derivesNames_of_production hp hrhs.derives
      · simpa [Nat.add_assoc] using hchain

/-- A closed set contains the spans of names that derive by name what they cover. -/
lemma mem_of_derivesNames (hschema : Schema.cykGeneral g tokens = .ok schema)
    (hF : schema.IsClosed F)
    (hempty : ∀ p ∈ g.productions, ∀ b, g.DerivesNames [b] [] → p.rhsNames.count b ≤ 1)
    (hle : i + l ≤ tokens.length) (h : g.DerivesNames [name] (span tokens i (i + l))) :
    form name i l ∈ F := by
  have hname : [name] = [Symbol.nonterminal name].map Symbol.name := rfl
  obtain ⟨xs, hxs, -, hchain⟩ := exists_chained_of_unfolds hschema hF hempty
    (unfolds_iff_derives.2 h) hname (eq_append_span tokens (Nat.le_add_right i l))
  obtain ⟨x, rfl⟩ : ∃ x, xs = [x] := List.length_eq_one_iff.1 hchain.length_eq
  have hform := hchain.form_of_singleton
  rw [List.length_append, Nat.add_sub_cancel_left, length_span (by omega), length_span hle,
    Nat.add_sub_cancel_left, Nat.sub_zero] at hform
  exact hform ▸ hxs x List.mem_cons_self

/-- For every grammar that is read from a file and every input, parsing by spans in general accepts
the grammar, and when a run has ended: each span in the chart of a name, the one for the empty
string apart, is within the input, and the name derives by name what the span covers. If no
right-hand side contains a name twice that derives the empty string by name, then all spans of this
kind are in the chart, whatever empty productions, cycles and long right-hand sides there are. -/
theorem cykGeneral_chart {file : String} (hread : GrammarFile.readContextFree file = .ok g)
    (tokens : List String) :
    ∃ schema : Schema W, Algorithm.cykGeneral.compileTokens (.contextFree g) tokens = .ok schema ∧
      ∀ settings fuel o, Deduction.run settings schema fuel = .ok o → ∀ name, name ≠ epsilon →
        (∀ i l, form name i l ∈ o.chart.forms →
          i + l ≤ tokens.length ∧ g.DerivesNames [name] (span tokens i (i + l))) ∧
        ((∀ p ∈ g.productions, ∀ b, g.DerivesNames [b] [] → p.rhsNames.count b ≤ 1) →
          ∀ i l, i + l ≤ tokens.length → g.DerivesNames [name] (span tokens i (i + l)) →
            form name i l ∈ o.chart.forms) := by
  have hg := GrammarFile.isWellFormed_of_readContextFree hread
  obtain ⟨schema, hschema⟩ : ∃ schema : Schema W, Schema.cykGeneral g tokens = .ok schema :=
    ⟨_, rfl⟩
  refine ⟨schema, hschema, fun settings fuel o hrun name hname => ?_⟩
  obtain ⟨hleast, -⟩ := Deduction.isLeast_and_isDerivable_iff_of_run
    (isSpanSchema_cykGeneral hschema).isUnweighted_and_isUnambiguous hrun
  constructor
  · intro i l hmem
    obtain ⟨hle, hderives⟩ := form_mem_namedForms.1 (hleast.2 (isClosed_namedForms hg hschema) hmem)
    exact ⟨hle, hderives hname⟩
  · intro hempty i l hle hderives
    exact mem_of_derivesNames hschema hleast.1 hempty hle hderives

/-- A file with the palindromes of even length over one letter. -/
def palindromesFile : String :=
  "N = \x7b\"S\"\x7d\nT = \x7b\"a\"\x7d\nS = \"S\"\nP = \x7b\"S -> a S a\", \"S -> ε\"\x7d\n"

/-- The grammar in that file. -/
def palindromesGrammar : Grammar :=
  ⟨["S"], ["a"], "S", [⟨"S", [.terminal "a", .nonterminal "S", .terminal "a"]⟩, ⟨"S", []⟩]⟩

lemma read_palindromesFile :
    GrammarFile.readContextFree palindromesFile = .ok palindromesGrammar := by
  decide +kernel

/-- Only the letter stands twice on a right-hand side, and it derives nothing else. -/
lemma palindromesGrammar_count_le :
    ∀ p ∈ palindromesGrammar.productions, ∀ b, palindromesGrammar.DerivesNames [b] [] →
      p.rhsNames.count b ≤ 1 := by
  intro p hp b hb
  have hletter : b ≠ "a" := by
    rintro rfl
    have heq := Unfolds.eq_of_forall_not (fun x hx rhs => ?_) (unfolds_iff_derives.2 hb)
    · cases heq
    · obtain rfl := List.mem_singleton.1 hx
      rintro ⟨p, hp, hname, -⟩
      simp only [palindromesGrammar, List.mem_cons, List.not_mem_nil, or_false] at hp
      rcases hp with rfl | rfl <;> simp at hname
  simp only [palindromesGrammar, List.mem_cons, List.not_mem_nil, or_false] at hp
  rcases hp with rfl | rfl
  · have hcount : ["a", "S", "a"].count b = ["S"].count b := by simp [List.count_cons, hletter.symm]
    exact hcount.trans_le List.count_le_length
  · exact Nat.zero_le _

lemma palindromesGrammar_derivesNames :
    palindromesGrammar.DerivesNames ["S"] [] ∧
      palindromesGrammar.DerivesNames ["S"] ["a", "a"] := by
  have hnone : palindromesGrammar.DerivesNames ["S"] [] :=
    derivesNames_of_production (p := ⟨"S", []⟩) (by simp [palindromesGrammar]) (.refl _)
  have hpair : palindromesGrammar.DerivesNames (["a"] ++ ["S"] ++ ["a"]) (["a"] ++ [] ++ ["a"]) :=
    ((Derives.refl ["a"]).append hnone).append (.refl ["a"])
  exact ⟨hnone, derivesNames_of_production
    (p := ⟨"S", [.terminal "a", .nonterminal "S", .terminal "a"]⟩) (by simp [palindromesGrammar])
    hpair⟩

/-- On two letters a run ends. Its chart has the whole input, and the empty string between the
letters. -/
theorem exists_cykGeneral_chart_palindromes :
    GrammarFile.readContextFree palindromesFile = .ok palindromesGrammar ∧
      (∀ p ∈ palindromesGrammar.productions, ∀ b, palindromesGrammar.DerivesNames [b] [] →
        p.rhsNames.count b ≤ 1) ∧ "S" ≠ epsilon ∧
      ∃ (schema : Schema Float) (fuel : ℕ) (o : Outcome Float),
        Algorithm.cykGeneral.compileTokens (.contextFree palindromesGrammar) ["a", "a"] =
            .ok schema ∧
          Deduction.run ⟨.accumulate, none⟩ schema fuel = .ok o ∧
            form "S" 0 2 ∈ o.chart.forms ∧ form "S" 1 0 ∈ o.chart.forms := by
  have hg := GrammarFile.isWellFormed_of_readContextFree read_palindromesFile
  obtain ⟨schema, hschema, hchart⟩ :=
    cykGeneral_chart (W := Float) read_palindromesFile ["a", "a"]
  have hspans : IsSpanSchema palindromesGrammar ["a", "a"] schema := isSpanSchema_cykGeneral hschema
  obtain ⟨fuel, o, hrun⟩ : ∃ fuel o, Deduction.run ⟨.accumulate, none⟩ schema fuel = .ok o :=
    Deduction.exists_run_of_composes rfl rfl (hspans.composes hg)
  have hname : "S" ≠ epsilon := by decide
  obtain ⟨-, hcomplete⟩ := hchart _ _ _ hrun "S" hname
  have hmem := hcomplete palindromesGrammar_count_le
  obtain ⟨hnone, hpair⟩ := palindromesGrammar_derivesNames
  exact ⟨read_palindromesFile, palindromesGrammar_count_le, hname, schema, fuel, o, hschema, hrun,
    hmem 0 2 (by decide) hpair, hmem 1 0 (by decide) hnone⟩

end DeductiveParsing.Cyk
