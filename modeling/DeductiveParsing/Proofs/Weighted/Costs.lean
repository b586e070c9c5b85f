/-
Parsing with costs and estimates weighs parses by their costs.

* `Weighted.joinsSpans_weightedAStar`: the schema joins spans as the binary productions say, so its
  runs end;
* `Weighted.costsOf`: the cost of all productions of a parse, which may be infinite;
* `Weighted.costs`: parses weighed by their costs, where there are estimates and these are finite;
* `Weighted.suits_costs`: the axioms and the rules of the schema are those of costs.
-/
import DeductiveParsing.Proofs.Weighted.Estimates
import DeductiveParsing.Proofs.Weighted.Termination
import DeductiveParsing.Proofs.Weighted.Weighing

namespace DeductiveParsing.Weighted

open Deduction (bind_eq_ok)

variable {tokens : List String}

/-! ### The schema -/

section Schema

variable {W : Type} [Weight W] {q : Production W} {x : Item W}

/-- The items of axioms are the spans that a production covers at once, with its cost and the
estimate around it. That around the empty input is left out. -/
lemma exists_mem_costAxioms_iff {estimates : Estimates W} :
    (∃ a ∈ Schema.costAxioms estimates tokens q, x ∈ a.items) ↔ ∃ i l v,
      Scans tokens q.production i l ∧ (l = 0 ∧ v = Weight.cost q.weight ∨
        ∃ u, estimates.outside? q.production.lhs i 1 = some u ∧ l = 1 ∧
          v = Weight.add (Weight.cost q.weight) u) ∧
        x = WeightedRule.item q.production.lhs i (i + l) v [.ofProduction q.production] := by
  rw [Schema.costAxioms]
  constructor
  · rintro ⟨a, ha, hx⟩
    split at ha
    · rename_i b hlexical hnames
      obtain ⟨b', hrhs⟩ := Cyk.rhs_of_isLexical hlexical
      obtain rfl : b' = b := by simpa [Production.rhsNames, hrhs, Symbol.name] using hnames
      obtain ⟨i, hi, ha⟩ := List.mem_filterMap.1 ha
      obtain ⟨u, hu, rfl⟩ := Option.map_eq_some_iff.1 ha
      exact ⟨i, 1, _, .token hrhs (Cyk.mem_placesOf.1 hi), Or.inr ⟨u, hu, rfl, rfl⟩,
        List.mem_singleton.1 hx⟩
    · split at ha
      · rename_i hempty
        obtain ⟨hrhs, htokens⟩ : q.production.rhs = [] ∧ tokens = [] := by
          simpa [Production.isEmpty] using hempty
        obtain rfl := List.mem_singleton.1 ha
        exact ⟨0, 0, _, .empty hrhs htokens, Or.inl ⟨rfl, rfl⟩, List.mem_singleton.1 hx⟩
      · cases ha
  · rintro ⟨i, l, v, hscans, hv, rfl⟩
    cases hscans with
    | @token b i hrhs htoken =>
        have hlexical : q.production.isLexical = true := by
          simp [Production.isLexical, hrhs, Symbol.isTerminal]
        have hnames : q.production.rhsNames = [b] := by
          rw [Production.rhsNames, hrhs]
          rfl
        rw [hlexical, hnames]
        rcases hv with ⟨hl, -⟩ | ⟨u, hu, -, rfl⟩
        · cases hl
        · exact ⟨_, List.mem_filterMap.2 ⟨i, Cyk.mem_placesOf.2 htoken, by rw [hu]; rfl⟩,
            List.mem_singleton_self _⟩
    | empty hrhs htokens =>
        have hlexical : q.production.isLexical = false := by simp [Production.isLexical, hrhs]
        rw [hlexical]
        rcases hv with ⟨-, rfl⟩ | ⟨-, -, hl, -⟩
        · simp [Production.isEmpty, hrhs, htokens, Schema.weightedFact, Schema.fact]
        · cases hl

/-- The schema joins spans as the binary productions say. -/
lemma joinsSpans_weightedAStar {g : Grammar W} {schema : Schema W}
    (hnormal : g.unweighted.isChomskyNormal = true)
    (hschema : Schema.weightedAStar g tokens = .ok schema) :
    JoinsSpans g tokens (fun i l => i + l) (fun i k => k - i) schema := by
  obtain ⟨-, -, hschema⟩ := bind_eq_ok.1 hschema
  obtain rfl := Except.ok.inj hschema
  refine ⟨hnormal, fun i l => Nat.add_sub_cancel_left i l, fun a ha x hx => ?_,
    fun rule hrule => ?_⟩
  · obtain ⟨p, hp, ha⟩ := List.mem_flatMap.1 ha
    obtain ⟨i, l, v, hscans, -, rfl⟩ := exists_mem_costAxioms_iff.1 ⟨a, ha, hx⟩
    exact ⟨p, hp, i, l, _, _, hscans, rfl⟩
  · obtain ⟨p, hp, rfl⟩ := List.mem_map.1 hrule
    obtain ⟨hp, hbinary⟩ := List.mem_filter.1 hp
    refine ⟨p, hp, hbinary, _, rfl, fun b c i j l m v w ts us f hjoin => ?_⟩
    obtain ⟨⟨rfl, -, -, hnames⟩, _, -, _, -, _, -, rfl⟩ :=
      WeightedRule.joinGuided_eq_some_iff.1 hjoin
    exact ⟨rfl, hnames, _, _, by rw [Nat.add_assoc]⟩

end Schema

/-! ### Costs of parses -/

variable {K : Type} [Numbers K] {g : Grammar (Exact K)} {p : Production (Exact K)}
  {ps qs : List (Production (Exact K))}

/-- The cost of a production, which may be infinite. -/
def costOf (p : Production (Exact K)) : WithTop K := (Weight.cost p.weight).toTop

/-- The cost of productions together. -/
def costsOf (ps : List (Production (Exact K))) : WithTop K := (ps.map costOf).sum

lemma costsOf_node (p : Production (Exact K)) (ps qs : List (Production (Exact K))) :
    costsOf (p :: (ps ++ qs)) = costOf p + costsOf ps + costsOf qs := by
  simp [costsOf, add_assoc]

/-- Whether all productions of a grammar have costs, which may be infinite. -/
def HasCosts (g : Grammar (Exact K)) : Prop :=
  ∀ p ∈ g.productions, Weight.cost p.weight = .ofTop (costOf p)

/-- When the estimates of two parts have been taken off, the cost of both is that of all
productions, and the estimate around both is put on. -/
lemma HasCosts.add_estimates (h : HasCosts g) (hp : p ∈ g.productions) (x y z : K) :
    Weight.add (Weight.add (Weight.add (Weight.cost p.weight)
      (Weight.sub (.ofTop (costsOf ps + x)) (.number x)))
        (Weight.sub (.ofTop (costsOf qs + y)) (.number y))) (.number z) =
          .ofTop (costsOf (p :: (ps ++ qs)) + z) := by
  rw [h p hp, Exact.sub_ofTop_add, Exact.sub_ofTop_add, ← Exact.ofTop_coe z, Exact.add_ofTop,
    Exact.add_ofTop, Exact.add_ofTop, costsOf_node]

/-- Whether all estimates of a grammar for inputs of a length are finite. -/
def HasFiniteEstimates (g : Grammar (Exact K)) (n : ℕ) : Prop :=
  ∀ name i l w, (Estimates.ofGrammar g n).outside? name i l = some w → ∃ x, w = .number x

/-- The estimate around a span, if it is finite. -/
def around (g : Grammar (Exact K)) (n : ℕ) (name : String) (i l : ℕ) : K :=
  (((Estimates.ofGrammar g n).outside? name i l).getD Weight.zero).value

lemma HasFiniteEstimates.outside?_eq {n : ℕ} (h : HasFiniteEstimates g n) {name : String} {i l : ℕ}
    (hsome : ((Estimates.ofGrammar g n).outside? name i l).isSome) :
    (Estimates.ofGrammar g n).outside? name i l = some (.number (around g n name i l)) := by
  obtain ⟨w, hw⟩ := Option.isSome_iff_exists.1 hsome
  obtain ⟨x, rfl⟩ := h _ _ _ _ hw
  rw [around, hw, Option.getD_some, Exact.value]

lemma around_start (g : Grammar (Exact K)) (n : ℕ) : around g n g.start 0 n = 0 := by
  rw [around, Estimates.outside?_start]
  rfl

/-- Parses weighed by their costs together with the estimates around them. -/
def costs (hnormal : g.unweighted.isChomskyNormal = true) (hcosts : HasCosts g)
    (hestimates : HasFiniteEstimates g tokens.length) :
    Weighing g tokens .lowerWins (WithTop K)ᵒᵈ where
  value ps := .toDual (costsOf ps)
  Covers name i l := ((Estimates.ofGrammar g tokens.length).outside? name i l).isSome
  mark i l := i + l
  weigh name i l v := .ofTop (OrderDual.ofDual v + ↑(around g tokens.length name i l))
  rule p := .guided p (.ofGrammar g tokens.length)
  mark_injective := Nat.add_left_cancel
  value_mono p _ ps ps' qs qs' _ _ _ _ hle hle' := by
    rw [costsOf_node, costsOf_node, OrderDual.toDual_le_toDual]
    exact add_le_add (add_le_add_right hle _) hle'
  prefers_iff v v' _ := by
    rw [Policy.prefers, Exact.less_ofTop, decide_eq_true_iff,
      WithTop.add_lt_add_iff_right WithTop.coe_ne_top, OrderDual.ofDual_lt_ofDual]
  covers_zero hcovers := by
    rcases Estimates.eq_or_pos_of_outside? hcovers with ⟨-, -, hn⟩ | hpos
    · exact List.length_eq_zero_iff.1 hn.symm
    · cases hpos
  covers_parts p hp b c t u v w ps qs i hrhs hleft hright hv hw hcovers :=
    Estimates.isSome_outside?_of_binary hnormal hp hrhs hleft hright hv hw hcovers
  join_iff p hp b c i j l m ps qs t u f hb hc _ _ := by
    have hwhole : i + l + m - i = l + m := by rw [Nat.add_assoc, Nat.add_sub_cancel_left]
    have hleft : i + l - i = l := Nat.add_sub_cancel_left i l
    have hright : i + l + m - (i + l) = m := Nat.add_sub_cancel_left (i + l) m
    have hb := hestimates.outside?_eq hb
    have hc := hestimates.outside?_eq hc
    rw [WeightedRule.join, WeightedRule.joinGuided_eq_some_iff]
    simp only [OrderDual.ofDual_toDual]
    constructor
    · rintro ⟨⟨rfl, -, -, hnames⟩, u₁, hu₁, u₂, hu₂, u, hu, rfl⟩
      rw [hleft, hb] at hu₁
      rw [hright, hc] at hu₂
      rw [hwhole] at hu
      have hcovers := Option.isSome_of_eq_some hu
      obtain rfl := Option.some.inj (hu.symm.trans (hestimates.outside?_eq hcovers))
      obtain rfl := Option.some.inj hu₁
      obtain rfl := Option.some.inj hu₂
      exact ⟨⟨rfl, hnames, hcovers⟩, by rw [hcosts.add_estimates hp, Nat.add_assoc]⟩
    · rintro ⟨⟨rfl, hnames, hcovers⟩, rfl⟩
      refine ⟨⟨rfl, Nat.le_add_right i l, Nat.le_add_right (i + l) m, hnames⟩, _,
        by rw [hleft, hb], _, by rw [hright, hc], _,
        by rw [hwhole, hestimates.outside?_eq hcovers], ?_⟩
      rw [hcosts.add_estimates hp, Nat.add_assoc]

variable (hnormal : g.unweighted.isChomskyNormal = true) (hcosts : HasCosts g)
  (hestimates : HasFiniteEstimates g tokens.length)

/-- The item of a parse with a finite cost has that together with the estimate around it. -/
lemma item_of_costsOf_eq {c : K} (hc : costsOf ps = c) (name : String) (i l : ℕ) (t : Tree) :
    (costs hnormal hcosts hestimates).item name i l ps t = WeightedRule.item name i (i + l)
      (.number (c + around g tokens.length name i l)) [t] := by
  rw [← Exact.ofTop_coe, WithTop.coe_add, ← hc]
  rfl

lemma item_single_cost (hp : p ∈ g.productions) (i l : ℕ) :
    (costs hnormal hcosts hestimates).item p.production.lhs i l [p] (.ofProduction p.production) =
      WeightedRule.item p.production.lhs i (i + l)
        (Weight.add (Weight.cost p.weight) (.number (around g tokens.length p.production.lhs i l)))
        [.ofProduction p.production] := by
  rw [hcosts p hp, ← Exact.ofTop_coe, Exact.add_ofTop]
  simp [Weighing.item, costs, costsOf, WeightedRule.item, Item.weighted, Cyk.form]

include hnormal hcosts hestimates in
/-- The cost of an axiom is that of its production together with the estimate around it. -/
lemma axiom_cost_iff (hp : p ∈ g.productions) {i l : ℕ} (hscans : Scans tokens p.production i l)
    {v : Exact K} :
    (l = 0 ∧ v = Weight.cost p.weight ∨ ∃ u, (Estimates.ofGrammar g tokens.length).outside?
      p.production.lhs i 1 = some u ∧ l = 1 ∧ v = Weight.add (Weight.cost p.weight) u) ↔
    ((Estimates.ofGrammar g tokens.length).outside? p.production.lhs i l).isSome ∧
      v = Weight.add (Weight.cost p.weight)
        (.number (around g tokens.length p.production.lhs i l)) := by
  cases hscans with
  | token =>
      constructor
      · rintro (⟨hl, -⟩ | ⟨u, hu, -, rfl⟩)
        · cases hl
        · have hcovers := Option.isSome_of_eq_some hu
          obtain rfl := Option.some.inj (hu.symm.trans (hestimates.outside?_eq hcovers))
          exact ⟨hcovers, rfl⟩
      · rintro ⟨hcovers, rfl⟩
        exact Or.inr ⟨_, hestimates.outside?_eq hcovers, rfl, rfl⟩
  | empty hrhs htokens =>
      -- an empty production is that of the start symbol, around which nothing costs more
      have hstart : p.production.lhs = g.start := Grammar.lhs_eq_start_of_empty hnormal hp hrhs
      subst htokens
      have haround : Weight.add (Weight.cost p.weight) (.number (around g 0 g.start 0 0)) =
          Weight.cost p.weight := by
        rw [around_start, hcosts p hp, ← Exact.ofTop_coe, Exact.add_ofTop, WithTop.coe_zero, add_zero]
      rw [hstart, List.length_nil, haround, Estimates.outside?_start]
      simp

/-- The axioms and the rules of the schema are those of costs. -/
lemma suits_costs {schema : Schema (Exact K)}
    (hschema : Schema.weightedAStar g tokens = .ok schema) :
    (costs hnormal hcosts hestimates).Suits schema := by
  obtain ⟨-, -, hschema⟩ := bind_eq_ok.1 hschema
  obtain rfl := Except.ok.inj hschema
  refine ⟨fun x => ?_, fun rule => ?_, fun f => ?_⟩
  · constructor
    · rintro ⟨a, ha, hx⟩
      obtain ⟨p, hp, ha⟩ := List.mem_flatMap.1 ha
      obtain ⟨i, l, v, hscans, hv, rfl⟩ := exists_mem_costAxioms_iff.1 ⟨a, ha, hx⟩
      obtain ⟨hcovers, rfl⟩ := (axiom_cost_iff hnormal hcosts hestimates hp hscans).1 hv
      exact ⟨p, hp, i, l, hscans, hcovers, (item_single_cost hnormal hcosts hestimates hp i l).symm⟩
    · rintro ⟨p, hp, i, l, hscans, hcovers, rfl⟩
      obtain ⟨a, ha, hx⟩ := exists_mem_costAxioms_iff.2 ⟨i, l, _, hscans,
        (axiom_cost_iff hnormal hcosts hestimates hp hscans).2 ⟨hcovers, rfl⟩, rfl⟩
      exact ⟨a, List.mem_flatMap.2 ⟨p, hp, ha⟩,
        item_single_cost hnormal hcosts hestimates hp i l ▸ hx⟩
  · simp only [Schema.make, List.mem_map, List.mem_filter, and_assoc]
    exact ⟨fun ⟨p, hp, hbinary, heq⟩ => ⟨p, hp, hbinary, heq.symm⟩,
      fun ⟨p, hp, hbinary, heq⟩ => ⟨p, hp, hbinary, heq.symm⟩⟩
  · have hmark : (costs hnormal hcosts hestimates).mark 0 tokens.length = tokens.length :=
      Nat.zero_add _
    rw [exists_goal_wholeSpan_iff, hmark]

end DeductiveParsing.Weighted
