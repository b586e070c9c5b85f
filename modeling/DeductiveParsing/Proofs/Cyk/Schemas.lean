/-
The schemas of parsing by spans.

* `Cyk.IsLexical`, `Cyk.IsMark`: the axioms of productions, and those of tokens and empty strings;
* `Cyk.IsSpanSchema`: what the three schemas have in common;
* `Cyk.IsNormalSchema`: what those for grammars in normal form have in common.
-/
import DeductiveParsing.Proofs.Cyk.Rules
import DeductiveParsing.Proofs.Deduction.Folds

namespace DeductiveParsing.Cyk

open ContextFree Grammar

variable {W : Type} {g : Grammar} {tokens : List String} {p : Production} {x : Item W}
  {schema : Schema W} {i : ℕ}

/-! ### Axioms -/

/-- The item of a lexical production at a place of its terminal, or of an empty production over the
empty input. -/
inductive IsLexical (g : Grammar) (tokens : List String) : Item W → Prop
  | token {p : Production} {a : String} {i : ℕ} (hp : p ∈ g.productions)
      (hrhs : p.rhs = [.terminal a]) (htoken : tokens[i]? = some a) :
      IsLexical g tokens (CykRule.item p.lhs i 1 [Tree.ofProduction p])
  | empty {p : Production} (hp : p ∈ g.productions) (hrhs : p.rhs = []) (htokens : tokens = []) :
      IsLexical g tokens (CykRule.item p.lhs 0 0 [Tree.ofProduction p])

/-- The item of a token at its place, or of the empty string at any place. -/
inductive IsMark (tokens : List String) : Item W → Prop
  | token {a : String} {i : ℕ} (htoken : tokens[i]? = some a) :
      IsMark tokens (CykRule.item a i 1 [])
  | empty {i : ℕ} (hi : i ≤ tokens.length) : IsMark tokens (CykRule.item epsilon i 0 [])

lemma mem_placesOf {a : String} : i ∈ Schema.placesOf tokens a ↔ tokens[i]? = some a := by
  simp [Schema.placesOf, List.mem_zipIdx_iff_getElem?]

lemma isLexical_of_mem_lexicalAxioms {a : Axiom W}
    (ha : a ∈ g.productions.flatMap (Schema.lexicalAxioms tokens)) :
    ∀ x ∈ a.items, IsLexical g tokens x := by
  obtain ⟨p, hp, ha⟩ := List.mem_flatMap.1 ha
  rw [Schema.lexicalAxioms] at ha
  split at ha
  · rename_i b hlexical hnames
    obtain ⟨b', hrhs⟩ := rhs_of_isLexical hlexical
    obtain rfl : b' = b := by simpa [Production.rhsNames, hrhs, Symbol.name] using hnames
    obtain ⟨i, hi, rfl⟩ := List.mem_map.1 ha
    exact fun x hx => List.mem_singleton.1 hx ▸ .token hp hrhs (mem_placesOf.1 hi)
  · split at ha
    · rename_i hempty
      obtain ⟨hrhs, htokens⟩ : p.rhs = [] ∧ tokens = [] := by
        simpa [Production.isEmpty] using hempty
      obtain rfl := List.mem_singleton.1 ha
      exact fun x hx => List.mem_singleton.1 hx ▸ .empty hp hrhs htokens
    · cases ha

/-- The axioms of parsing by spans for all grammars are the tokens and the empty strings. -/
lemma mem_axioms_cykGeneral (hschema : Schema.cykGeneral g tokens = .ok schema) {x : Item W} :
    (∃ a ∈ schema.axioms, x ∈ a.items) ↔ IsMark tokens x := by
  obtain rfl := Except.ok.inj hschema
  have hempty : ∀ i, x ∈ (Schema.emptyAxiom (W := W) i).items ↔ x = CykRule.item epsilon i 0 [] :=
    fun i => List.mem_singleton
  constructor
  · rintro ⟨a, ha, hx⟩
    rcases List.mem_append.1 ha with ha | ha
    · obtain ⟨⟨token, i⟩, htoken, ha⟩ := List.mem_flatMap.1 ha
      have htoken : tokens[i]? = some token := List.mem_zipIdx_iff_getElem?.1 htoken
      rcases List.mem_pair.1 ha with rfl | rfl
      · exact List.mem_singleton.1 hx ▸ .token htoken
      · exact (hempty i).1 hx ▸ .empty (List.getElem?_eq_some_iff.1 htoken).1.le
    · obtain rfl := List.mem_singleton.1 ha
      exact (hempty _).1 hx ▸ .empty le_rfl
  · have hbehind : ∀ a i, tokens[i]? = some a → ∀ b ∈ [Schema.fact (W := W) ("scan " ++ a)
        (CykRule.item a i 1 []), Schema.emptyAxiom i], b ∈ (tokens.zipIdx.flatMap
          fun q => [Schema.fact ("scan " ++ q.1) (CykRule.item q.1 q.2 1 []),
            Schema.emptyAxiom q.2]) ++ [Schema.emptyAxiom tokens.length] :=
      fun a i htoken b hb => List.mem_append_left _
        (List.mem_flatMap.2 ⟨(a, i), List.mem_zipIdx_iff_getElem?.2 htoken, hb⟩)
    rintro (⟨htoken⟩ | @⟨i, hi⟩)
    · exact ⟨_, hbehind _ _ htoken _ List.mem_cons_self, List.mem_singleton_self _⟩
    · rcases Nat.lt_or_eq_of_le hi with hi | rfl
      · exact ⟨_, hbehind _ i (List.getElem?_eq_getElem hi) _ (List.mem_cons_of_mem _
          List.mem_cons_self), List.mem_singleton_self _⟩
      · exact ⟨_, List.mem_append_right _ (List.mem_singleton_self _), List.mem_singleton_self _⟩

/-! ### Schemas -/

/-- What the schemas of parsing by spans have in common. -/
structure IsSpanSchema (g : Grammar) (tokens : List String) (schema : Schema W) : Prop where
  axioms : ∀ a ∈ schema.axioms, ∀ x ∈ a.items, IsLexical g tokens x ∨ IsMark tokens x
  rules : ∀ rule ∈ schema.rules, ∃ r, rule = .cyk r ∧ Suits r ∧ r.production ∈ g.productions
  goals : ∀ x ∈ schema.goals, x.form = form g.start 0 tokens.length

/-- What the schemas for the two normal forms have in common: the axioms are those of productions,
and the right-hand sides that rules are made for consist of nonterminals. -/
structure IsNormalSchema (g : Grammar) (tokens : List String) (schema : Schema W) : Prop extends
    IsSpanSchema g tokens schema where
  isLexical : ∀ a ∈ schema.axioms, ∀ x ∈ a.items, IsLexical g tokens x
  isNonterminal : ∀ r, .cyk r ∈ schema.rules → ∀ s ∈ r.production.rhs, s.isNonterminal = true

lemma form_of_mem_goals {axioms : List (Axiom W)} {rules : List (Rule W)}
    (h : x ∈ (Schema.make axioms rules [Schema.wholeSpan g.start tokens]).goals) :
    x.form = form g.start 0 tokens.length := by
  rw [List.mem_singleton.1 (Choice.mem_of_mem_distinctBy h)]
  rfl

/-- A schema for a normal form is one whose rules are made for binary and unary productions. -/
lemma isNormalSchema_make {rules : List (Rule W)} (hrules : ∀ rule ∈ rules, ∃ p ∈ g.productions,
      (rule = .cyk (.binary p) ∧ p.isBinary = true) ∨ (rule = .cyk (.unary p) ∧ p.isUnary = true)) :
    IsNormalSchema g tokens (Schema.make (g.productions.flatMap (Schema.lexicalAxioms tokens)) rules
      [Schema.wholeSpan g.start tokens]) := by
  have haxioms : ∀ a ∈ g.productions.flatMap (Schema.lexicalAxioms (W := W) tokens), ∀ x ∈ a.items,
      IsLexical g tokens x := fun a ha => isLexical_of_mem_lexicalAxioms ha
  refine ⟨⟨fun a ha x hx => Or.inl (haxioms a ha x hx), fun rule hrule => ?_,
    fun x => form_of_mem_goals⟩, haxioms, fun r hr => ?_⟩
  · obtain ⟨p, hp, ⟨rfl, hbinary⟩ | ⟨rfl, hunary⟩⟩ := hrules rule hrule
    · exact ⟨_, rfl, hbinary, hp⟩
    · exact ⟨_, rfl, hunary, hp⟩
  · obtain ⟨p, -, ⟨heq, hbinary⟩ | ⟨heq, hunary⟩⟩ := hrules _ hr
    · obtain rfl := Rule.cyk.inj heq
      obtain ⟨b, c, hrhs⟩ := rhs_of_isBinary hbinary
      simp [CykRule.production, hrhs, Symbol.isNonterminal]
    · obtain rfl := Rule.cyk.inj heq
      obtain ⟨b, hrhs⟩ := rhs_of_isUnary hunary
      simp [CykRule.production, hrhs, Symbol.isNonterminal]

lemma isNormalSchema_cyk (hschema : Schema.cyk g tokens = .ok schema) :
    IsNormalSchema g tokens schema := by
  obtain ⟨-, -, h⟩ := Deduction.bind_eq_ok.1 hschema
  obtain rfl := Except.ok.inj h
  refine isNormalSchema_make fun rule hrule => ?_
  obtain ⟨p, hp, rfl⟩ := List.mem_map.1 hrule
  obtain ⟨hp, hbinary⟩ := List.mem_filter.1 hp
  exact ⟨p, hp, Or.inl ⟨rfl, hbinary⟩⟩

lemma isNormalSchema_cykExtended (hschema : Schema.cykExtended g tokens = .ok schema) :
    IsNormalSchema g tokens schema := by
  obtain ⟨-, -, h⟩ := Deduction.bind_eq_ok.1 hschema
  obtain rfl := Except.ok.inj h
  refine isNormalSchema_make fun rule hrule => ?_
  obtain ⟨p, hp, hrule⟩ := List.mem_filterMap.1 hrule
  rw [Schema.binaryOrUnary?] at hrule
  split at hrule
  · rename_i hbinary
    exact ⟨p, hp, Or.inl ⟨(Option.some.inj hrule).symm, hbinary⟩⟩
  · obtain ⟨hunary, hrule⟩ := Option.ite_none_right_eq_some.1 hrule
    exact ⟨p, hp, Or.inr ⟨(Option.some.inj hrule).symm, hunary⟩⟩

lemma isSpanSchema_cykGeneral (hschema : Schema.cykGeneral g tokens = .ok schema) :
    IsSpanSchema g tokens schema := by
  refine ⟨fun a ha x hx => Or.inr ((mem_axioms_cykGeneral hschema).1 ⟨a, ha, hx⟩),
    fun rule hrule => ?_, fun x hx => ?_⟩
  · obtain rfl := Except.ok.inj hschema
    obtain ⟨p, hp, rfl⟩ := List.mem_map.1 hrule
    exact ⟨_, rfl, trivial, hp⟩
  · obtain rfl := Except.ok.inj hschema
    exact form_of_mem_goals hx

lemma IsSpanSchema.isUnweighted_and_isUnambiguous (h : IsSpanSchema g tokens schema) :
    ∀ rule ∈ schema.rules, rule.IsUnweighted ∧ rule.IsUnambiguous := by
  intro rule hrule
  obtain ⟨r, rfl, -⟩ := h.rules rule hrule
  exact ⟨trivial, trivial⟩

end DeductiveParsing.Cyk
