/-
What parsing by spans finds for grammars in normal form, exactly.

* `exists_empty_of_derives_nil`: only the left-hand side of an empty production derives the empty
  string, and in a normal form that stands on no right-hand side;
* `Cyk.IsFullSchema`: the schemas for the two normal forms, with everything that they consist of;
* `Cyk.IsFullSchema.forms_eq`: the spans in the chart at the end of a run are those of names that
  derive the tokens which they cover, `Cyk.exactForms`;
* `Cyk.cyk_chart_exact`: the same for both algorithms, and what is derivable.
-/
import DeductiveParsing.Algorithm
import DeductiveParsing.Proofs.Cyk.Forests
import DeductiveParsing.Proofs.Cyk.Recognition
import DeductiveParsing.Proofs.Cyk.Spans
import DeductiveParsing.Proofs.GrammarFile.ContextFree

namespace DeductiveParsing

namespace ContextFree.Grammar

open Rewriting

variable {g : Grammar} {p : Production} {a : String} {s : Symbol}

/-! ### Normal forms -/

lemma isTwoForm_of_isChomskyNormal (h : g.isChomskyNormal = true) : g.isTwoForm = true := by
  refine List.all_eq_true.2 fun p hp => ?_
  have hcases := List.all_eq_true.1 h p hp
  simp only [Bool.or_eq_true] at hcases ⊢
  tauto

/-- The productions of a normal form. An empty one is for the start symbol, and then this stands on
no right-hand side. -/
lemma production_cases (h : g.isTwoForm = true) (hp : p ∈ g.productions) :
    p.isBinary = true ∨ p.isUnary = true ∨ p.isLexical = true ∨
      (p.rhs = [] ∧ ∀ q ∈ g.productions, p.lhs ∉ q.rhsNames) := by
  have hcases := List.all_eq_true.1 h p hp
  simp only [Bool.or_eq_true, toleratesEmpty, Bool.and_eq_true, beq_iff_eq,
    Bool.not_eq_true'] at hcases
  rcases hcases with ((hbinary | hunary) | hlexical) | ⟨⟨hempty, hstart⟩, hused⟩
  · exact Or.inl hbinary
  · exact Or.inr (Or.inl hunary)
  · exact Or.inr (Or.inr (Or.inl hlexical))
  · refine Or.inr (Or.inr (Or.inr ⟨List.isEmpty_iff.1 hempty, fun q hq hmem => ?_⟩))
    have hnot := List.any_eq_false.1 hused q hq
    exact hnot (List.contains_iff_mem.2 (hstart ▸ hmem))

lemma mem_of_rhs_eq_nil (hp : p ∈ g.productions) (hrhs : p.rhs = []) :
    ⟨p.lhs, []⟩ ∈ g.productions := by
  obtain ⟨lhs, rhs⟩ := p
  obtain rfl : rhs = [] := hrhs
  exact hp

/-- In a normal form, the left-hand side of an empty production stands on no right-hand side. -/
lemma lhs_not_mem_of_rhs_eq_nil (h : g.isTwoForm = true) (hp : p ∈ g.productions)
    (hrhs : p.rhs = []) {q : Production} (hq : q ∈ g.productions) : p.lhs ∉ q.rhsNames := by
  rcases production_cases h hp with hbinary | hunary | hlexical | ⟨-, hused⟩
  · simp [Production.isBinary, hrhs] at hbinary
  · simp [Production.isUnary, hrhs] at hunary
  · simp [Production.isLexical, hrhs] at hlexical
  · exact hused q hq

/-- What unfolds to the empty sequence consists of left-hand sides of empty productions. -/
lemma exists_empty_of_unfolds (h : g.isTwoForm = true) {us vs : List Symbol}
    (hus : Unfolds g.Replaces us vs) (hvs : vs = []) :
    ∀ s ∈ us, ∃ p ∈ g.productions, s = .nonterminal p.lhs ∧ p.rhs = [] := by
  induction hus with
  | nil => simp
  | keep => cases hvs
  | expand hx _ _ ihrhs ihxs =>
      obtain ⟨rfl, rfl⟩ := List.append_eq_nil_iff.1 hvs
      obtain ⟨p, hp, rfl, rfl⟩ := hx
      refine List.forall_mem_cons.2 ⟨⟨p, hp, rfl, ?_⟩, ihxs rfl⟩
      -- the first symbol on its right-hand side would have an empty production as well
      by_contra hne
      obtain ⟨s, symbols, hrhs⟩ := List.exists_cons_of_ne_nil hne
      have hs : s ∈ p.rhs := hrhs ▸ List.mem_cons_self
      obtain ⟨q, hq, rfl, hempty⟩ := ihrhs rfl s hs
      exact lhs_not_mem_of_rhs_eq_nil h hq hempty hp (List.mem_map_of_mem (f := Symbol.name) hs)

/-- In a normal form, only the left-hand side of an empty production derives the empty string. -/
lemma exists_empty_of_derives_nil (h : g.isTwoForm = true)
    (ha : g.Derives [.nonterminal a] []) : ⟨a, []⟩ ∈ g.productions := by
  obtain ⟨p, hp, heq, hrhs⟩ :=
    exists_empty_of_unfolds h (unfolds_iff_derives.2 ha) rfl _ (List.mem_singleton_self _)
  obtain rfl : a = p.lhs := Symbol.nonterminal.inj heq
  exact mem_of_rhs_eq_nil hp hrhs

/-- In a normal form, a symbol on a right-hand side has no empty production. -/
lemma empty_not_mem_productions (h : g.isTwoForm = true) (hp : p ∈ g.productions)
    (hs : s ∈ p.rhs) : ⟨s.name, []⟩ ∉ g.productions :=
  fun hmem => lhs_not_mem_of_rhs_eq_nil h hmem rfl hp (List.mem_map_of_mem hs)

/-- In a normal form, a nonterminal on a right-hand side derives at least one token. -/
lemma ne_nil_of_mem_rhs (h : g.isTwoForm = true) (hp : p ∈ g.productions)
    (ha : .nonterminal a ∈ p.rhs) {w : List String} (hw : g.Derives [.nonterminal a] (word w)) :
    w ≠ [] := by
  rintro rfl
  exact empty_not_mem_productions h hp ha (exists_empty_of_derives_nil h hw)

end ContextFree.Grammar

namespace Cyk

open ContextFree Grammar

variable {W : Type} {g : Grammar} {tokens before rest u w : List String} {p : Production}
  {x y : Item W} {xs : List (Item W)} {schema : Schema W} {symbols : List Symbol} {cs ts : List Tree}
  {name : String} {i l place stop : ℕ}

/-! ### What is in the chart -/

/-- The forms of true spans that cover a token at least, or an empty input by an empty
production. -/
def exactForms (g : Grammar) (tokens : List String) : Set Form :=
  spanForms fun name i l =>
    Recognized g tokens name i l ∧ (1 ≤ l ∨ (tokens = [] ∧ ⟨name, []⟩ ∈ g.productions))

lemma form_mem_exactForms : form name i l ∈ exactForms g tokens ↔
    Recognized g tokens name i l ∧ (1 ≤ l ∨ (tokens = [] ∧ ⟨name, []⟩ ∈ g.productions)) :=
  form_mem_spanForms

lemma IsLexical.form_mem_exactForms (h : IsLexical g tokens x) :
    x.form ∈ exactForms g tokens := by
  have htrue := h.form_mem
  cases h with
  | @token p a i hp hrhs htoken =>
      exact Cyk.form_mem_exactForms.2 ⟨form_mem_trueForms.1 htrue, Or.inl le_rfl⟩
  | @empty p hp hrhs htokens =>
      exact Cyk.form_mem_exactForms.2 ⟨form_mem_trueForms.1 htrue,
        Or.inr ⟨htokens, mem_of_rhs_eq_nil hp hrhs⟩⟩

/-- The spans for a right-hand side cover a token each. -/
lemma one_le_of_mem_exactForms (hg : g.isTwoForm = true) (hp : p ∈ g.productions)
    (h : Chained place xs p.rhs stop) (hxs : ∀ x ∈ xs, x.form ∈ exactForms g tokens) :
    ∀ x ∈ xs, ∀ name i l, x.form = form name i l → 1 ≤ l := by
  intro x hx name i l hform
  obtain ⟨s, hs, i', l', hform', -⟩ := h.exists_form x hx
  obtain ⟨rfl, rfl, rfl⟩ := form_injective (hform.symm.trans hform')
  obtain ⟨-, hpos | ⟨-, hempty⟩⟩ := Cyk.form_mem_exactForms.1 (hform ▸ hxs x hx)
  · exact hpos
  · exact absurd hempty (empty_not_mem_productions hg hp hs)

/-- What the schemas for the normal forms have in common, with everything that they consist of: the
grammar is in normal form, and all axioms, rules and goals are there. -/
structure IsFullSchema (g : Grammar) (tokens : List String) (schema : Schema W) : Prop extends
    IsNormalSchema g tokens schema where
  isTwoForm : g.isTwoForm = true
  exists_axiom : ∀ x, IsLexical g tokens x → ∃ a ∈ schema.axioms, x ∈ a.items
  binary_mem : ∀ p ∈ g.productions, p.isBinary = true → .cyk (.binary p) ∈ schema.rules
  unary_mem : ∀ p ∈ g.productions, p.isUnary = true → .cyk (.unary p) ∈ schema.rules
  exists_goal : ∃ x ∈ schema.goals, x.form = form g.start 0 tokens.length

lemma exists_lexicalAxiom (hx : IsLexical g tokens x) :
    ∃ a ∈ g.productions.flatMap (Schema.lexicalAxioms (W := W) tokens), x ∈ a.items := by
  cases hx with
  | @token p a i hp hrhs htoken =>
      have hlexical : p.isLexical = true := by simp [Production.isLexical, hrhs, Symbol.isTerminal]
      have hnames : p.rhsNames = [a] := by simp [Production.rhsNames, hrhs, Symbol.name]
      refine ⟨Schema.fact ("scan " ++ p.text) (CykRule.item p.lhs i 1 [Tree.ofProduction p]),
        List.mem_flatMap.2 ⟨p, hp, ?_⟩, List.mem_singleton_self _⟩
      simp only [Schema.lexicalAxioms, hlexical, hnames]
      exact List.mem_map.2 ⟨i, mem_placesOf.2 htoken, rfl⟩
  | @empty p hp hrhs htokens =>
      have hlexical : p.isLexical = false := by simp [Production.isLexical, hrhs]
      refine ⟨Schema.fact ("scan " ++ p.text) (CykRule.item p.lhs 0 0 [Tree.ofProduction p]),
        List.mem_flatMap.2 ⟨p, hp, ?_⟩, List.mem_singleton_self _⟩
      simp [Schema.lexicalAxioms, hlexical, Production.isEmpty, hrhs, htokens]

lemma exists_goal_wholeSpan (axioms : List (Axiom W)) (rules : List (Rule W)) :
    ∃ x ∈ (Schema.make axioms rules [Schema.wholeSpan g.start tokens]).goals,
      x.form = form g.start 0 tokens.length :=
  ⟨Schema.wholeSpan g.start tokens, List.mem_singleton_self _, rfl⟩

lemma exists_isFullSchema_cyk (hg : g.isChomskyNormal = true) :
    ∃ schema : Schema W, Schema.cyk g tokens = .ok schema ∧ IsFullSchema g tokens schema := by
  have hschema : Schema.cyk (W := W) g tokens = .ok (Schema.make
      (g.productions.flatMap (Schema.lexicalAxioms tokens))
      ((g.productions.filter Production.isBinary).map fun p => .cyk (.binary p))
      [Schema.wholeSpan g.start tokens]) := by
    rw [Schema.cyk, hg]
    rfl
  refine ⟨_, hschema, { isNormalSchema_cyk hschema with
    isTwoForm := isTwoForm_of_isChomskyNormal hg
    exists_axiom := fun x => exists_lexicalAxiom
    binary_mem := fun p hp hbinary => List.mem_map_of_mem (List.mem_filter.2 ⟨hp, hbinary⟩)
    unary_mem := fun p hp hunary => ?_
    exists_goal := exists_goal_wholeSpan _ _ }⟩
  -- a unary production is none of those that the form allows
  obtain ⟨b, hrhs⟩ := rhs_of_isUnary hunary
  have hcases := List.all_eq_true.1 hg p hp
  simp [Production.isBinary, Production.isLexical, toleratesEmpty, Production.isEmpty, hrhs,
    Symbol.isTerminal] at hcases

lemma exists_isFullSchema_cykExtended (hg : g.isTwoForm = true) :
    ∃ schema : Schema W, Schema.cykExtended g tokens = .ok schema ∧
      IsFullSchema g tokens schema := by
  have hschema : Schema.cykExtended (W := W) g tokens = .ok (Schema.make
      (g.productions.flatMap (Schema.lexicalAxioms tokens))
      (g.productions.filterMap Schema.binaryOrUnary?) [Schema.wholeSpan g.start tokens]) := by
    rw [Schema.cykExtended, hg]
    rfl
  refine ⟨_, hschema, { isNormalSchema_cykExtended hschema with
    isTwoForm := hg
    exists_axiom := fun x => exists_lexicalAxiom
    binary_mem := fun p hp hbinary => List.mem_filterMap.2 ⟨p, hp, ?_⟩
    unary_mem := fun p hp hunary => List.mem_filterMap.2 ⟨p, hp, ?_⟩
    exists_goal := exists_goal_wholeSpan _ _ }⟩
  · rw [Schema.binaryOrUnary?, if_pos hbinary]
  · obtain ⟨b, hrhs⟩ := rhs_of_isUnary hunary
    have hbinary : p.isBinary = false := by simp [Production.isBinary, hrhs]
    simp [Schema.binaryOrUnary?, hbinary, hunary]

variable [Weight W] {F : Set Form}

namespace IsFullSchema

/-- What a rule concludes from forms of the exact set is in it, even if it uses one of them
twice. -/
lemma mem_exactForms_of_fire (h : IsFullSchema g tokens schema) {rule : Rule W}
    (hrule : rule ∈ schema.rules) (hxs : ∀ x ∈ xs, x.form ∈ exactForms g tokens) {f : Firing W}
    (hf : rule.fire? xs = some f) : ∀ y ∈ f.items, y.form ∈ exactForms g tokens := by
  intro y hy
  have hspans : ∀ x ∈ xs, IsSpan x := isSpan_of_mem_spanForms hxs
  have htrue : y.form ∈ trueForms g tokens := by
    refine h.toIsNormalSchema.mem_trueForms_of_fire hrule (fun x hx => ?_) hf y hy
    obtain ⟨name, i, l, hform, hrecognized, -⟩ := hxs x hx
    exact ⟨name, i, l, hform, hrecognized⟩
  obtain ⟨p, hp, hconcludes⟩ := h.toIsSpanSchema.concludes hrule hspans hf hy
  cases hconcludes with
  | @spans order start stop hne hperm hchain =>
      have hpos := one_le_of_mem_exactForms h.isTwoForm hp hchain
        fun x hx => hxs x (hperm.subset hx)
      have hlt := hchain.lt_of_pos hne hpos
      exact form_mem_exactForms.2 ⟨form_mem_trueForms.1 htrue, Or.inl (by omega)⟩
  | @empty x i hrhs hxs' hx =>
      subst hxs'
      obtain ⟨-, hpos | ⟨htokens, -⟩⟩ :=
        form_mem_exactForms.1 (hx ▸ hxs x List.mem_cons_self)
      · omega
      · exact form_mem_exactForms.2 ⟨form_mem_trueForms.1 htrue,
          Or.inr ⟨htokens, mem_of_rhs_eq_nil hp hrhs⟩⟩

lemma isClosed_exactForms (h : IsFullSchema g tokens schema) :
    schema.IsClosed (exactForms g tokens) :=
  ⟨fun a ha x hx => (h.isLexical a ha x hx).form_mem_exactForms,
    fun _ hrule _ _ hxs _ hf => h.mem_exactForms_of_fire hrule hxs hf⟩

/-! ### All of it is concluded -/

/-- A closed set contains the form of a left-hand side over what its right-hand side spells, if
it contains spans for the right-hand side where that consists of nonterminals. -/
lemma mem_of_production (h : IsFullSchema g tokens schema) (hF : schema.IsClosed F)
    (hp : p ∈ g.productions) (hne : p.rhs ≠ []) (hcs : g.Spells p.rhs cs u)
    (htokens : tokens = before ++ u ++ rest)
    (hspans : (∀ s ∈ p.rhs, s.isNonterminal = true ∧ ⟨s.name, []⟩ ∉ g.productions) →
      ∃ xs : List (Item W), (∀ x ∈ xs, x.form ∈ F) ∧
        (∀ x ∈ xs, ∀ name i l, x.form = form name i l → 1 ≤ l) ∧
          Chained before.length xs p.rhs (before ++ u).length) :
    form p.lhs before.length u.length ∈ F ∧ 1 ≤ u.length := by
  -- binary and unary rules both join the spans
  have hjoin : (∀ s ∈ p.rhs, s.isNonterminal = true) → ∀ r : CykRule, r.production = p →
      Suits r → .cyk r ∈ schema.rules →
        form p.lhs before.length u.length ∈ F ∧ 1 ≤ u.length := by
    rintro hs r rfl hr hmem
    obtain ⟨xs, hxs, hpos, hchain⟩ :=
      hspans fun s hmem => ⟨hs s hmem, empty_not_mem_productions h.isTwoForm hp hmem⟩
    have hlt := hchain.lt_of_pos hne hpos
    have hnodup := hchain.nodup_forms fun x hx name i hform => by
      have := hpos x hx name i 0 hform
      omega
    have hform := mem_of_chained hF hmem hr hne hchain hxs hnodup
    rw [List.length_append] at hlt
    rw [List.length_append, Nat.add_sub_cancel_left] at hform
    exact ⟨hform, by omega⟩
  rcases production_cases h.isTwoForm hp with hbinary | hunary | hlexical | ⟨hrhs, -⟩
  · obtain ⟨b, c, hrhs⟩ := rhs_of_isBinary hbinary
    exact hjoin (by simp [hrhs, Symbol.isNonterminal]) (.binary p) rfl hbinary
      (h.binary_mem p hp hbinary)
  · obtain ⟨b, hrhs⟩ := rhs_of_isUnary hunary
    exact hjoin (by simp [hrhs, Symbol.isNonterminal]) (.unary p) rfl hunary
      (h.unary_mem p hp hunary)
  · obtain ⟨a, hrhs⟩ := rhs_of_isLexical hlexical
    rw [hrhs] at hcs
    cases hcs with
    | leaf _ hcs =>
        cases hcs
        have htoken : tokens[before.length]? = some a := by simp [htokens]
        obtain ⟨b, hb, hx⟩ := h.exists_axiom _ (.token hp hrhs htoken)
        exact ⟨hF.axioms_mem b hb _ hx, le_rfl⟩
  · exact absurd hrhs hne

/-- A closed set contains spans for nonterminals in a row that spell the tokens behind a place, if
they have no empty productions. -/
lemma exists_chained_of_spells (h : IsFullSchema g tokens schema) (hF : schema.IsClosed F)
    (hts : g.Spells symbols ts w) (htokens : tokens = before ++ w ++ rest)
    (hs : ∀ s ∈ symbols, s.isNonterminal = true ∧ ⟨s.name, []⟩ ∉ g.productions) :
    ∃ xs : List (Item W), (∀ x ∈ xs, x.form ∈ F) ∧
      (∀ x ∈ xs, ∀ name i l, x.form = form name i l → 1 ≤ l) ∧
        Chained before.length xs symbols (before ++ w).length := by
  induction hts generalizing before rest with
  | nil => exact ⟨[], nofun, nofun, by rw [List.append_nil]; exact .nil _⟩
  | leaf a => cases (hs _ List.mem_cons_self).1
  | @node p symbols cs ts u w hp hcs _ ihcs ihts =>
      obtain ⟨hfirst, hs⟩ := List.forall_mem_cons.1 hs
      have hne : p.rhs ≠ [] := fun hrhs => hfirst.2 (mem_of_rhs_eq_nil hp hrhs)
      have htokens₁ : tokens = before ++ u ++ (w ++ rest) := by simpa using htokens
      have htokens₂ : tokens = (before ++ u) ++ w ++ rest := by simpa using htokens
      obtain ⟨hform, hpos⟩ := h.mem_of_production hF hp hne hcs htokens₁ (ihcs htokens₁)
      obtain ⟨xs, hxs, hlong, hchain⟩ := ihts htokens₂ hs
      refine ⟨.ofForm (form p.lhs before.length u.length) :: xs,
        List.forall_mem_cons.2 ⟨hform, hxs⟩,
        List.forall_mem_cons.2 ⟨fun name i l heq => ?_, hlong⟩, .cons rfl ?_⟩
      · obtain ⟨-, -, rfl⟩ := form_injective heq
        exact hpos
      · simpa [Nat.add_assoc] using hchain

/-- A closed set contains the exact set. -/
lemma exactForms_subset (h : IsFullSchema g tokens schema) (hF : schema.IsClosed F) :
    exactForms g tokens ⊆ F := by
  rintro _ ⟨name, i, l, rfl, ⟨hle, hderives⟩, hcases⟩
  rcases hcases with hpos | ⟨rfl, hempty⟩
  · obtain ⟨p, hp, rfl, hrhs⟩ := exists_of_nonterminal_derives hderives
    obtain ⟨cs, hcs⟩ := Spells.exists_of_derives hrhs
    have hbefore : (span tokens 0 i).length = i := length_span (by omega)
    have hlength : (span tokens i (i + l)).length = l := by
      rw [length_span hle, Nat.add_sub_cancel_left]
    have htokens := eq_append_span tokens (Nat.le_add_right i l)
    have hne : p.rhs ≠ [] := by
      intro hrhs
      rw [hrhs] at hcs
      have hnil : span tokens i (i + l) = [] := eq_nil_of_derives hcs.derives
      rw [hnil] at hlength
      exact absurd hlength (by simp; omega)
    obtain ⟨hform, -⟩ := h.mem_of_production hF hp hne hcs htokens
      (h.exists_chained_of_spells hF hcs htokens)
    rwa [hbefore, hlength] at hform
  · obtain ⟨rfl, rfl⟩ : i = 0 ∧ l = 0 := by simpa using hle
    obtain ⟨a, ha, hx⟩ := h.exists_axiom _ (.empty hempty rfl rfl)
    exact hF.axioms_mem a ha _ hx

/-- When a run has ended, the forms in the chart are the exact set. -/
lemma forms_eq (h : IsFullSchema g tokens schema) {settings : Settings} {fuel : ℕ} {o : Outcome W}
    (hrun : Deduction.run settings schema fuel = .ok o) : o.chart.forms = exactForms g tokens := by
  obtain ⟨hleast, -⟩ :=
    Deduction.isLeast_and_isDerivable_iff_of_run h.isUnweighted_and_isUnambiguous hrun
  exact (hleast.2 h.isClosed_exactForms).antisymm (h.exactForms_subset hleast.1)

/-- When a run has ended, something is derivable if the start symbol derives the input. -/
lemma isDerivable_iff (h : IsFullSchema g tokens schema) {settings : Settings} {fuel : ℕ}
    {o : Outcome W} (hrun : Deduction.run settings schema fuel = .ok o) :
    o.isDerivable = true ↔ g.Generates tokens := by
  refine ⟨h.generates_of_isDerivable hrun, fun hderives => ?_⟩
  obtain ⟨-, hderivable⟩ :=
    Deduction.isLeast_and_isDerivable_iff_of_run h.isUnweighted_and_isUnambiguous hrun
  obtain ⟨x, hx, hform⟩ := h.exists_goal
  refine hderivable.2 ⟨x, hx, ?_⟩
  rw [hform, h.forms_eq hrun, form_mem_exactForms]
  refine ⟨⟨(Nat.zero_add _).le, ?_⟩, ?_⟩
  · rwa [Nat.zero_add, span_length]
  · by_cases htokens : tokens = []
    · subst htokens
      exact Or.inr ⟨rfl, exists_empty_of_derives_nil h.isTwoForm hderives⟩
    · exact Or.inl (List.length_pos_iff.2 htokens)

end IsFullSchema

/-- The algorithms for the two normal forms accept the grammars that are in theirs. -/
lemma exists_isFullSchema {a : Algorithm}
    (ha : (a = .cyk ∧ g.isChomskyNormal = true) ∨ (a = .cykExtended ∧ g.isTwoForm = true))
    (tokens : List String) : ∃ schema : Schema W,
      a.compileTokens (.contextFree g) tokens = .ok schema ∧ IsFullSchema g tokens schema := by
  rcases ha with ⟨rfl, hg⟩ | ⟨rfl, hg⟩
  · exact exists_isFullSchema_cyk hg
  · exact exists_isFullSchema_cykExtended hg

/-- For every grammar in the normal form of the algorithm, chain cycles included, and every input:
the algorithm accepts the grammar, and when a run has ended, the chart holds the span of a name iff
the name derives the tokens that the span covers and these are one token at least, or the input is
empty and the name has an empty production. So something is derivable iff the start symbol derives
the input. That rules take different antecedents loses nothing: the chart holds what a rule would
conclude from items of the chart if it could use one of them twice. -/
theorem cyk_chart_exact {a : Algorithm}
    (ha : (a = .cyk ∧ g.isChomskyNormal = true) ∨ (a = .cykExtended ∧ g.isTwoForm = true))
    (tokens : List String) :
    ∃ schema : Schema W, a.compileTokens (.contextFree g) tokens = .ok schema ∧
      ∀ settings fuel o, Deduction.run settings schema fuel = .ok o →
        (∀ name i l, form name i l ∈ o.chart.forms ↔
          i + l ≤ tokens.length ∧
            g.Derives [.nonterminal name] (word (span tokens i (i + l))) ∧
              (1 ≤ l ∨ (tokens = [] ∧ ⟨name, []⟩ ∈ g.productions))) ∧
        (o.isDerivable = true ↔ g.Generates tokens) ∧
        ∀ rule ∈ schema.rules, ∀ xs : List (Item W), (∀ x ∈ xs, x.form ∈ o.chart.forms) →
          ∀ f, rule.fire? xs = some f → ∀ y ∈ f.items, y.form ∈ o.chart.forms := by
  obtain ⟨schema, hschema, h⟩ := exists_isFullSchema (W := W) ha tokens
  refine ⟨schema, hschema, fun settings fuel o hrun => ?_⟩
  have hforms := h.forms_eq hrun
  refine ⟨fun name i l => ?_, h.isDerivable_iff hrun, fun rule hrule xs hxs f hf => ?_⟩
  · rw [hforms, form_mem_exactForms]
    constructor
    · rintro ⟨⟨hle, hderives⟩, hcases⟩
      exact ⟨hle, hderives, hcases⟩
    · rintro ⟨hle, hderives, hcases⟩
      exact ⟨⟨hle, hderives⟩, hcases⟩
  · rw [hforms] at hxs ⊢
    exact h.mem_exactForms_of_fire hrule hxs hf

/-- A file in which two parts follow one another, each of which may be renamed back and forth. -/
def renamingFile : String :=
  "N = \x7b\"S\", \"A\", \"B\"\x7d\nT = \x7b\"b\"\x7d\nS = \"S\"\n" ++
    "P = \x7b\"S -> A A\", \"A -> B\", \"B -> A\", \"B -> b\"\x7d\n"

/-- The grammar in that file. -/
def renamingGrammar : Grammar :=
  ⟨["S", "A", "B"], ["b"], "S", [⟨"S", [.nonterminal "A", .nonterminal "A"]⟩,
    ⟨"A", [.nonterminal "B"]⟩, ⟨"B", [.nonterminal "A"]⟩, ⟨"B", [.terminal "b"]⟩]⟩

lemma read_renamingFile : GrammarFile.readContextFree renamingFile = .ok renamingGrammar := by
  decide +kernel

lemma renamingGrammar_derives_part :
    renamingGrammar.Derives [.nonterminal "A"] (word ["b"]) := by
  have hletter : renamingGrammar.Derives [.nonterminal "B"] (word ["b"]) :=
    derives_of_production (p := ⟨"B", [.terminal "b"]⟩) (by simp [renamingGrammar]) (.refl _)
  exact derives_of_production (p := ⟨"A", [.nonterminal "B"]⟩) (by simp [renamingGrammar]) hletter

/-- On two letters a run ends. Its chart has the second part, and the input is derivable. -/
theorem exists_cyk_chart_exact_renaming :
    renamingGrammar.isTwoForm = true ∧
      ∃ (schema : Schema Float) (fuel : ℕ) (o : Outcome Float),
        Algorithm.cykExtended.compileTokens (.contextFree renamingGrammar) ["b", "b"] = .ok schema ∧
          Deduction.run ⟨.accumulate, none⟩ schema fuel = .ok o ∧
            form "A" 1 1 ∈ o.chart.forms ∧ o.isDerivable = true := by
  have htwo : renamingGrammar.isTwoForm = true := by decide
  have hg := GrammarFile.isWellFormed_of_readContextFree read_renamingFile
  obtain ⟨schema, hschema, hexact⟩ :=
    cyk_chart_exact (W := Float) (Or.inr ⟨rfl, htwo⟩) ["b", "b"]
  have hnormal : IsNormalSchema renamingGrammar ["b", "b"] schema :=
    isNormalSchema_cykExtended hschema
  obtain ⟨fuel, o, hrun⟩ : ∃ fuel o, Deduction.run ⟨.accumulate, none⟩ schema fuel = .ok o :=
    Deduction.exists_run_of_composes rfl rfl (hnormal.toIsSpanSchema.composes hg)
  obtain ⟨hchart, hderivable, -⟩ := hexact _ _ _ hrun
  refine ⟨htwo, schema, fuel, o, hschema, hrun, (hchart _ _ _).2 ?_, hderivable.2 ?_⟩
  · exact ⟨by decide, renamingGrammar_derives_part, Or.inl le_rfl⟩
  · exact derives_of_production (p := ⟨"S", [.nonterminal "A", .nonterminal "A"]⟩)
      (by simp [renamingGrammar])
      (renamingGrammar_derives_part.append renamingGrammar_derives_part)

end Cyk

end DeductiveParsing
