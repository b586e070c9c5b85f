/-
What top-down parsing finds.

* `TopDown.Step`, `TopDown.Reaches`: the steps of a walk that is not kept short;
* `TopDown.reaches_of_unfolds`: walks read what names derive;
* `TopDown.length_le_of_reaches`: on the way to the end of the input there is room for all that is
  still to be found;
* `TopDown.mem_of_reaches`: so every set that is closed under the rules holds what successful walks
  pass through;
* `TopDown.topDown_exact`: what items say at every moment, and what is derivable at the end.
-/
import DeductiveParsing.Algorithm
import DeductiveParsing.Proofs.ContextFree.Names
import DeductiveParsing.Proofs.Deduction.Closure
import DeductiveParsing.Proofs.Deduction.Moments
import DeductiveParsing.Proofs.TopDown.Termination

namespace DeductiveParsing.TopDown

open ContextFree Grammar Rewriting
open Relation (ReflTransGen)

variable {W : Type} {g : Grammar} {tokens names w stack : List String} {i j : ℕ}

/-! ### Walks -/

/-- The steps of a walk through the input with what is still to be found: the first symbol is the
next token, or a right-hand side takes its place, whether there is room for it or not. -/
inductive Step (g : Grammar) (tokens : List String) : List String × ℕ → List String × ℕ → Prop
  | scan {a : String} {stack : List String} {i : ℕ} (ha : tokens[i]? = some a) :
      Step g tokens (a :: stack, i) (stack, i + 1)
  | predict {p : Production} {stack : List String} {i : ℕ} (hp : p ∈ g.productions) :
      Step g tokens (p.lhs :: stack, i) (p.rhsNames ++ stack, i)

/-- Whether a walk leads from one place with what is still to be found to another. -/
def Reaches (g : Grammar) (tokens : List String) : List String × ℕ → List String × ℕ → Prop :=
  ReflTransGen (Step g tokens)

/-- A walk reads what the names at the front unfold to, if the input goes on with it. -/
lemma reaches_of_unfolds (h : Unfolds g.ReplacesName names w) (before behind : List String)
    (htokens : tokens = before ++ w ++ behind) (stack : List String) :
    Reaches g tokens (names ++ stack, before.length) (stack, before.length + w.length) := by
  induction h generalizing before behind stack with
  | nil => exact .refl
  | @keep x xs ys _ ih =>
      have ha : tokens[before.length]? = some x := by simp [htokens]
      have hrest := ih (before ++ [x]) behind (by simp [htokens]) stack
      rw [List.length_append, List.length_singleton, Nat.add_assoc, Nat.add_comm 1] at hrest
      exact .head (.scan ha) hrest
  | @expand x rhs us xs ys hx _ _ ihrhs ihxs =>
      obtain ⟨p, hp, rfl, rfl⟩ := hx
      have hfirst := ihrhs before (ys ++ behind) (by simp [htokens]) (xs ++ stack)
      have hrest := ihxs (before ++ us) behind (by simp [htokens]) stack
      rw [List.length_append] at hrest
      rw [List.length_append, ← Nat.add_assoc]
      exact .head (.predict hp) (hfirst.trans hrest)

/-- A walk to the end of the input reads a token at least for each symbol that is still to be
found. -/
lemma length_le_of_reaches (hempty : g.hasEmptyProduction = false)
    (h : Reaches g tokens (stack, i) ([], j)) : stack.length + i ≤ j := by
  obtain ⟨s, hs⟩ : ∃ s, s = (stack, i) := ⟨_, rfl⟩
  rw [← hs] at h
  induction h using ReflTransGen.head_induction_on generalizing stack i with
  | refl =>
      obtain ⟨rfl, rfl⟩ := Prod.mk.inj hs
      simp
  | head hstep _ ih =>
      cases hstep with
      | scan =>
          obtain ⟨rfl, rfl⟩ := Prod.mk.inj hs
          have hle := ih rfl
          rw [List.length_cons]
          omega
      | @predict p rest i hp =>
          obtain ⟨rfl, rfl⟩ := Prod.mk.inj hs
          have hle := ih rfl
          have hpos := List.length_pos_iff.2 (rhs_ne_nil hempty hp)
          rw [List.length_append, Production.rhsNames, List.length_map] at hle
          rw [List.length_cons]
          omega

/-! ### What is found -/

/-- Whether the start symbol derives the tokens before a place and what is still to be found
there. -/
def IsExpected (g : Grammar) (tokens : List String) (x : Item W) : Prop :=
  ∃ stack i, x.form = form stack i ∧ i ≤ tokens.length ∧
    g.DerivesNames [g.start] (tokens.take i ++ stack)

section Schema

variable [Weight W] {schema : Schema W} (hschema : Schema.topDown g tokens = .ok schema)
include hschema

/-- A closed set holds whatever a walk to the end of the input passes through. -/
lemma mem_of_reaches {F : Set Form} (hF : schema.IsClosed F)
    (h : Reaches g tokens ([g.start], 0) (stack, i))
    (hend : Reaches g tokens (stack, i) ([], tokens.length)) : form stack i ∈ F := by
  have hempty := hasEmptyProduction_eq_false hschema
  obtain ⟨s, hs⟩ : ∃ s, s = (stack, i) := ⟨_, rfl⟩
  rw [← hs] at h
  induction h generalizing stack i with
  | refl =>
      obtain ⟨rfl, rfl⟩ := Prod.mk.inj hs
      rw [schema_eq hschema] at hF
      exact hF.axioms_mem _ List.mem_cons_self _ List.mem_cons_self
  | tail _ hstep ih =>
      have hbefore := ih (.head (hs ▸ hstep) hend) rfl
      cases hstep with
      | @scan a rest k ha =>
          obtain ⟨rfl, rfl⟩ := Prod.mk.inj hs
          exact hF.mem_of_fire ((mem_rules hschema).2 (Or.inl rfl)) [form (a :: rest) k]
            (by simpa using hbefore) (List.nodup_singleton _)
            (Rule.fire?_eq_some.2 ⟨rfl, fire_scan rfl ha⟩) (List.mem_singleton_self _)
      | @predict p rest k hp =>
          obtain ⟨rfl, rfl⟩ := Prod.mk.inj hs
          -- the way to the end shows that there is room
          have hroom := length_le_of_reaches hempty hend
          exact hF.mem_of_fire ((mem_rules hschema).2 (Or.inr ⟨p, hp, rfl⟩))
            [form (p.lhs :: rest) k] (by simpa using hbefore) (List.nodup_singleton _)
            (Rule.fire?_eq_some.2 ⟨rfl, fire_predict rfl (by omega) (by omega)⟩)
            (List.mem_singleton_self _)

/-- Axiom and rules lead to what is expected only. -/
lemma preserves_isExpected : schema.Preserves (IsExpected g tokens) := by
  refine preserves hschema ⟨[g.start], 0, rfl, Nat.zero_le _, .refl _⟩ ?_ ?_
    fun x y hx _ _ => hx
  · rintro x f ⟨stack, i, hform, -, hderives⟩ hf y hy
    obtain ⟨a, rest, rfl, ha, hitems⟩ := scan_eq_some hform hf
    rw [hitems, List.mem_singleton] at hy
    subst hy
    refine ⟨rest, i + 1, rfl, (List.getElem?_eq_some_iff.1 ha).1, ?_⟩
    rwa [List.take_add_one, ha, Option.toList_some, List.append_assoc]
  · rintro p hp x f ⟨stack, i, hform, hi, hderives⟩ hf y hy
    obtain ⟨rest, rfl, -, -, hitems⟩ := predict_eq_some hform hf
    rw [hitems, List.mem_singleton] at hy
    subst hy
    refine ⟨p.rhsNames ++ rest, i, rfl, hi, hderives.trans ?_⟩
    rw [← List.append_assoc]
    exact .replace _ rest (.of_mem hp)

end Schema

variable (W) in
/-- For every grammar without empty productions and every input: at every moment of a run, items say
what is still to be found behind tokens if the start symbol derives both by name. When a run has
ended, something is derivable iff the start symbol derives the input by name, and nothing is missing
that a walk to the end of the input passes through, however long it gets on the way. -/
theorem topDown_exact [Weight W] (hempty : g.hasEmptyProduction = false) (tokens : List String) :
    ∃ schema : Schema W, Algorithm.topDown.compileTokens (.contextFree g) tokens = .ok schema ∧
      (∀ settings m, Deduction.Moment.Reaches settings schema (.start schema) m →
        ∀ x ∈ m.state.chart.items, ∃ stack i, x.form = form stack i ∧ i ≤ tokens.length ∧
          g.DerivesNames [g.start] (tokens.take i ++ stack)) ∧
      ∀ settings fuel o, Deduction.run settings schema fuel = .ok o →
        (o.isDerivable = true ↔ g.DerivesNames [g.start] tokens) ∧
        ∀ stack i, Reaches g tokens ([g.start], 0) (stack, i) →
          Reaches g tokens (stack, i) ([], tokens.length) → form stack i ∈ o.chart.forms := by
  obtain ⟨schema, hschema⟩ : ∃ schema : Schema W, Schema.topDown g tokens = .ok schema := by
    rw [Schema.topDown, hempty]
    exact ⟨_, rfl⟩
  have hpreserves := preserves_isExpected hschema
  refine ⟨schema, hschema, fun settings m hm => (Deduction.all_of_reaches hpreserves hm).holds,
    fun settings fuel o h => ?_⟩
  obtain ⟨hleast, hderivable⟩ :=
    Deduction.isLeast_and_isDerivable_iff_of_run (isUnweighted_and_isUnambiguous hschema) h
  have hgoals : (∃ x ∈ schema.goals, x.form ∈ o.chart.forms) ↔
      form [] tokens.length ∈ o.chart.forms := by
    rw [schema_eq hschema, Schema.exists_goal_make]
    simp [Item.ofForm]
  rw [hderivable, hgoals]
  refine ⟨⟨fun hmem => ?_, fun hderives => ?_⟩, fun stack i =>
    mem_of_reaches hschema hleast.1⟩
  · obtain ⟨t, ht, rfl⟩ := Deduction.run_eq_ok h
    obtain ⟨x, hx, hform⟩ := Chart.mem_forms_iff.1 hmem
    obtain ⟨stack, i, hform', -, hderives⟩ := Deduction.holds_of_finalState hpreserves ht x hx
    obtain ⟨rfl, rfl⟩ := form_injective (hform'.symm.trans hform)
    rwa [List.take_length, List.append_nil] at hderives
  · have hreaches := reaches_of_unfolds (unfolds_iff_derives.2 hderives) [] []
      (List.append_nil tokens).symm []
    rw [List.append_nil, List.length_nil, Nat.zero_add] at hreaches
    exact mem_of_reaches hschema hleast.1 hreaches .refl

/-- A run on two letters ends with a derivation, although the start symbol is the first of two
symbols that it leads to, and the second of them is still to be found behind the first letter. -/
theorem exists_topDown_exact_pairs :
    ∃ (schema : Schema Float) (fuel : ℕ) (o : Outcome Float),
      GrammarFile.readContextFree pairsFile = .ok pairsGrammar ∧
        pairsGrammar.hasEmptyProduction = false ∧
        Algorithm.topDown.compileTokens (.contextFree pairsGrammar) ["a", "a"] = .ok schema ∧
        Deduction.run ⟨.accumulate, none⟩ schema fuel = .ok o ∧ o.isDerivable = true ∧
        form ["S"] 1 ∈ o.chart.forms := by
  have hempty : pairsGrammar.hasEmptyProduction = false := by decide
  obtain ⟨schema, hschema, -, hend⟩ := topDown_exact Float hempty ["a", "a"]
  have hschema' : Schema.topDown pairsGrammar ["a", "a"] = .ok schema := hschema
  obtain ⟨fuel, o, h⟩ : ∃ fuel o, Deduction.run ⟨.accumulate, none⟩ schema fuel = .ok o :=
    Deduction.exists_run rfl rfl (bounds hschema' acyclic_pairsGrammar)
  obtain ⟨hderivable, hpassed⟩ := hend _ _ _ h
  have hletter : Unfolds pairsGrammar.ReplacesName ["S"] ["a"] :=
    .expand (ReplacesName.of_mem (p := ⟨"S", [.terminal "a"]⟩) (by simp [pairsGrammar])) (.refl _)
      .nil
  have hpair : Unfolds pairsGrammar.ReplacesName ["S", "S"] ["a", "a"] := hletter.append hletter
  have hstep : Step pairsGrammar ["a", "a"] (["S"], 0) (["S", "S"], 0) :=
    .predict (p := ⟨"S", [.nonterminal "S", .nonterminal "S"]⟩) (by simp [pairsGrammar])
  -- behind the first letter, one of two symbols is left
  have hfirst : Reaches pairsGrammar ["a", "a"] (["S", "S"], 0) (["S"], 1) :=
    reaches_of_unfolds hletter [] ["a"] rfl ["S"]
  have hlast : Reaches pairsGrammar ["a", "a"] (["S"], 1) ([], 2) :=
    reaches_of_unfolds hletter ["a"] [] rfl []
  refine ⟨schema, fuel, o, read_pairsFile, hempty, hschema, h, hderivable.2 ?_,
    hpassed _ _ (.head hstep hfirst) hlast⟩
  exact derivesNames_of_production (p := ⟨"S", [.nonterminal "S", .nonterminal "S"]⟩)
    (by simp [pairsGrammar]) hpair.derives

end DeductiveParsing.TopDown
