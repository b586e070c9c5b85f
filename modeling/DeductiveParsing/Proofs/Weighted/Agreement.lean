/-
Parsing with weights finds the spans that parsing without them finds, whatever the weights are.

* `Deduction.listing`: notice is taken of a consequence when its form is in the chart;
* `Spans`: which spans are considered, and rules that join two of them whatever their weights are;
* `Spans.mem_forms_iff`: at the end, the chart has the considered spans that the grammar derives;
* `probableSpans`, `guidedSpans`: those of parsing with probabilities and with estimates of costs;
* `weighted_agrees`: these two agree with parsing without weights, up to spans without room.
-/
import DeductiveParsing.Proofs.Weighted.Lengths
import DeductiveParsing.Proofs.Weighted.Viterbi
import DeductiveParsing.Proofs.Weighted.ZeroProbability

namespace DeductiveParsing

open ContextFree (word word_append)

/-- Having the form of a consequence in the chart is a way of taking notice of it. -/
def Deduction.listing (W : Type) [Weight W] (settings : Settings) :
    Deduction.Upkeep W settings where
  Kept c x := x.form ∈ c.forms
  of_merge hs h := Chart.mem_forms.2 ((MergeStep.of_merge h).exists_form hs)
  mono hs h hy := by
    obtain ⟨i, hi⟩ := Chart.mem_forms.1 hy
    exact Chart.mem_forms.2 ⟨i, ((MergeStep.of_merge h).evolves hs).form?_eq_some hi⟩

namespace Weighted

variable {W : Type} [Weight W] {g : Grammar W} {tokens : List String} {schema : Schema W}

/-! ### Spans with any weights -/

/-- A choice of spans, how they are written in items, and rules that join two of them in a row as
their productions say, whatever the weights are. -/
structure Spans (g : Grammar W) (tokens : List String) where
  Covers : String → ℕ → ℕ → Prop
  mark : ℕ → ℕ → ℕ
  rule : Production W → WeightedRule W
  isDownward : IsDownward g tokens Covers
  of_join : ∀ p ∈ g.productions, ∀ {b c : String} {i j l m : ℕ} {v w : W} {ts us : List Tree}
    {f : Firing W}, Covers b i l → Covers c j m →
      (rule p).join ⟨Cyk.form b i (mark i l), some v, ts⟩
        ⟨Cyk.form c j (mark j m), some w, us⟩ = some f →
        i + l = j ∧ p.production.rhsNames.take 2 = [b, c] ∧ Covers p.production.lhs i (l + m) ∧
          ∃ z us', f.items = [⟨Cyk.form p.production.lhs i (mark i (l + m)), some z, us'⟩]
  exists_join : ∀ p ∈ g.productions, ∀ {b c : String} {i l m : ℕ} (v w : W) (ts us : List Tree),
    p.production.rhs = [.nonterminal b, .nonterminal c] → Covers b i l → Covers c (i + l) m →
      Covers p.production.lhs i (l + m) →
        ∃ f, (rule p).join ⟨Cyk.form b i (mark i l), some v, ts⟩
          ⟨Cyk.form c (i + l) (mark (i + l) m), some w, us⟩ = some f

namespace Spans

/-- Whether a schema has the considered spans that a production covers at once as axioms, the rules
of binary productions, and the start symbol over the whole input as its goal. -/
structure Suits (h : Spans g tokens) (schema : Schema W) : Prop where
  of_axiom : ∀ a ∈ schema.axioms, ∀ x ∈ a.items, ∃ p ∈ g.productions, ∃ i l v ts,
    Scans tokens p.production i l ∧ h.Covers p.production.lhs i l ∧
      x = ⟨Cyk.form p.production.lhs i (h.mark i l), some v, ts⟩
  exists_axiom : ∀ p ∈ g.productions, ∀ {i l : ℕ}, Scans tokens p.production i l →
    h.Covers p.production.lhs i l →
      ∃ a ∈ schema.axioms, ∃ x ∈ a.items, x.form = Cyk.form p.production.lhs i (h.mark i l)
  rules_iff : ∀ rule, rule ∈ schema.rules ↔
    ∃ p ∈ g.productions, p.production.isBinary = true ∧ rule = .weighted (h.rule p)
  goals_iff : ∀ f, (∃ x ∈ schema.goals, x.form = f) ↔
    f = Cyk.form g.start 0 (h.mark 0 tokens.length)

/-- Whether a name derives the tokens of a span that is considered. -/
def Holds (h : Spans g tokens) (name : String) (i l : ℕ) : Prop :=
  i + l ≤ tokens.length ∧ h.Covers name i l ∧
    g.unweighted.Derives [.nonterminal name] (word (span tokens i (i + l)))

/-- Whether an item is such a span, with some weight. -/
def IsTrue (h : Spans g tokens) (x : Item W) : Prop :=
  ∃ name i l v ts, x = ⟨Cyk.form name i (h.mark i l), some v, ts⟩ ∧ h.Holds name i l

variable {h : Spans g tokens} {p : Production W} {b c name : String} {i l m : ℕ}

lemma IsTrue.isSpan {x : Item W} (hx : h.IsTrue x) : Cyk.IsSpan x := by
  obtain ⟨name, i, l, v, ts, rfl, -⟩ := hx
  exact ⟨name, i, _, rfl⟩

/-- The left-hand side of a production derives what its two parts derive. -/
lemma Holds.join (hp : p ∈ g.productions)
    (hrhs : p.production.rhs = [.nonterminal b, .nonterminal c]) (hb : h.Holds b i l)
    (hc : h.Holds c (i + l) m) (hcovers : h.Covers p.production.lhs i (l + m)) :
    h.Holds p.production.lhs i (l + m) := by
  obtain ⟨-, -, hb⟩ := hb
  obtain ⟨hle, -, hc⟩ := hc
  have hparts := hb.append hc
  rw [← word_append, span_append (Nat.le_add_right i l) (Nat.le_add_right (i + l) m),
    Nat.add_assoc] at hparts
  rw [Nat.add_assoc] at hle
  exact ⟨hle, hcovers, ContextFree.Grammar.derives_of_production (Grammar.mem_unweighted hp)
    (hrhs ▸ hparts)⟩

/-- All items in a chart are true, whatever happens to consequences that are there. -/
lemma preserves_isTrue (hsuits : h.Suits schema) : schema.Preserves h.IsTrue where
  of_axiom a ha x hx := by
    obtain ⟨p, hp, i, l, v, ts, hscans, hcovers, rfl⟩ := hsuits.of_axiom a ha x hx
    obtain ⟨hle, hparses⟩ := hscans.parses hp
    exact ⟨_, i, l, v, ts, rfl, hle, hcovers, hparses.spells.derives⟩
  of_fire rule hrule xs f hxs hf y hy := by
    obtain ⟨p, hp, hbinary, rfl⟩ := (hsuits.rules_iff rule).1 hrule
    obtain ⟨x, x', hperm, hjoin⟩ := WeightedRule.exists_of_fire? hf
    obtain ⟨b, i, l, v, ts, rfl, hb⟩ := hxs x (hperm.symm.subset (by simp))
    obtain ⟨c, j, m, w, us, rfl, hc⟩ := hxs x' (hperm.symm.subset (by simp))
    obtain ⟨rfl, hnames, hcovers, z, us', hitems⟩ := h.of_join p hp hb.2.1 hc.2.1 hjoin
    obtain ⟨b', c', hrhs⟩ := Cyk.rhs_of_isBinary hbinary
    obtain ⟨rfl, rfl⟩ : b' = b ∧ c' = c := by
      simpa [Production.rhsNames, hrhs, Symbol.name] using hnames
    rw [hitems, List.mem_singleton] at hy
    exact ⟨_, i, l + m, z, us', hy, hb.join hp hrhs hc hcovers⟩
  of_merge x y hx _ _ := by
    obtain ⟨name, i, l, v, ts, rfl, hholds⟩ := hx
    exact ⟨name, i, l, v, _, rfl, hholds⟩

section Run

variable (hsuits : h.Suits schema) {settings : Settings} {fuel : ℕ}
  {s : Deduction.State W} (hrun : Deduction.finalState settings schema fuel = .ok s)

include hsuits hrun in
/-- What has a form in the chart at the end has a weight. -/
lemma exists_item_of_form {f : Form} (hf : f ∈ s.chart.forms) :
    ∃ v ts, ⟨f, some v, ts⟩ ∈ s.chart.items := by
  obtain ⟨x, hx, rfl⟩ := Chart.mem_forms_iff.1 hf
  obtain ⟨_, _, _, v, ts, rfl, -⟩ :=
    Deduction.holds_of_finalState (preserves_isTrue hsuits) hrun x hx
  exact ⟨v, ts, hx⟩

include hsuits hrun in
/-- If two parts are in the chart at the end, so is the span of both. -/
lemma mem_forms_of_parts (hp : p ∈ g.productions)
    (hrhs : p.production.rhs = [.nonterminal b, .nonterminal c]) (hl : 0 < l)
    (hcovers : h.Covers p.production.lhs i (l + m)) (hb : h.Covers b i l)
    (hc : h.Covers c (i + l) m) (hx : Cyk.form b i (h.mark i l) ∈ s.chart.forms)
    (hy : Cyk.form c (i + l) (h.mark (i + l) m) ∈ s.chart.forms) :
    Cyk.form p.production.lhs i (h.mark i (l + m)) ∈ s.chart.forms := by
  have htrue := Deduction.holds_of_finalState (preserves_isTrue hsuits) hrun
  obtain ⟨v, ts, hx⟩ := exists_item_of_form hsuits hrun hx
  obtain ⟨w, us, hy⟩ := exists_item_of_form hsuits hrun hy
  have hbinary : p.production.isBinary = true := by
    simp [Production.isBinary, hrhs, Symbol.isNonterminal]
  obtain ⟨f, hjoin⟩ := h.exists_join p hp v w ts us hrhs hb hc hcovers
  obtain ⟨-, -, -, z, us', hitems⟩ := h.of_join p hp hb hc hjoin
  have hne : Cyk.form b i (h.mark i l) ≠ Cyk.form c (i + l) (h.mark (i + l) m) := fun heq => by
    obtain ⟨-, hi, -⟩ := Cyk.form_injective heq
    omega
  exact WeightedRule.kept_of_join (Deduction.listing W settings) hrun
    ((hsuits.rules_iff _).2 ⟨p, hp, hbinary, rfl⟩) hx hy (htrue _ hx).isSpan (htrue _ hy).isSpan
      hne hjoin (by rw [hitems]; exact List.mem_singleton_self _)

include hsuits hrun in
/-- At the end of a run, the chart has the considered spans that the grammar derives. -/
theorem mem_forms_iff (hnormal : g.unweighted.isChomskyNormal = true) {f : Form} :
    f ∈ s.chart.forms ↔ ∃ name i l, f = Cyk.form name i (h.mark i l) ∧ h.Holds name i l := by
  constructor
  · intro hf
    obtain ⟨x, hx, rfl⟩ := Chart.mem_forms_iff.1 hf
    obtain ⟨name, i, l, v, ts, rfl, hholds⟩ :=
      Deduction.holds_of_finalState (preserves_isTrue hsuits) hrun x hx
    exact ⟨name, i, l, rfl, hholds⟩
  · rintro ⟨name, i, l, rfl, hle, hcovers, hderives⟩
    obtain ⟨t, ps, hparses⟩ := Grammar.exists_parses_of_derives hderives
    refine h.isDownward.induction hnormal (motive := fun name i l _ =>
      Cyk.form name i (h.mark i l) ∈ s.chart.forms) ?scans ?parts hparses hle hcovers
    case scans =>
      intro p hp i l hscans hcovers
      obtain ⟨a, ha, x, hx, hform⟩ := hsuits.exists_axiom p hp hscans hcovers
      exact hform ▸ Deduction.mem_forms_of_mem_axioms hrun ha hx
    case parts =>
      rintro p hp b c i l m - - hrhs hl - - hcovers hb hc hx hy
      exact mem_forms_of_parts hsuits hrun hp hrhs hl hcovers hb hc hx hy

include hsuits hrun in
/-- Something is derivable if the span of the whole input is considered and the grammar derives
it. -/
lemma isDerivable_iff (hnormal : g.unweighted.isChomskyNormal = true)
    (hmark : Function.Injective (h.mark 0)) :
    (Outcome.ofChart schema.goals s.chart).isDerivable = true ↔
      h.Holds g.start 0 tokens.length := by
  rw [Deduction.isDerivable_ofChart_iff (Deduction.consistent_of_finalState hrun).1.indexed]
  constructor
  · rintro ⟨x, hx, hform⟩
    rw [(hsuits.goals_iff x.form).1 ⟨x, hx, rfl⟩] at hform
    obtain ⟨name, i, l, heq, hholds⟩ := (mem_forms_iff hsuits hrun hnormal).1 hform
    obtain ⟨rfl, rfl, hl⟩ := Cyk.form_injective heq
    exact hmark hl ▸ hholds
  · intro hholds
    obtain ⟨x, hx, hxform⟩ := (hsuits.goals_iff _).2 rfl
    exact ⟨x, hx, hxform ▸ (mem_forms_iff hsuits hrun hnormal).2 ⟨_, _, _, rfl, hholds⟩⟩

end Run

end Spans

/-! ### The two schemata -/

open Deduction (bind_eq_ok)

/-- The spans of parsing with probabilities: those that cover a token, and that of the empty
input. -/
def probableSpans (g : Grammar W) (tokens : List String) : Spans g tokens where
  Covers _ _ l := 0 < l ∨ tokens = []
  mark _ l := l
  rule := .product
  isDownward := ⟨by simp, fun _ _ _ _ _ _ _ _ _ _ _ _ _ _ hv hw _ =>
    ⟨Or.inl (List.length_pos_iff.2 hv), Or.inl (List.length_pos_iff.2 hw)⟩⟩
  of_join p _ b c i j l m v w ts us f hb _ hjoin := by
    obtain ⟨hplaces, hnames, rfl⟩ := WeightedRule.joinProduct_eq_some_iff.1 hjoin
    exact ⟨hplaces, hnames, hb.imp_left fun hl => by omega, _, _, rfl⟩
  exists_join p _ b c i l m v w ts us hrhs _ _ _ :=
    ⟨_, WeightedRule.joinProduct_eq_some_iff.2 ⟨rfl, by rw [Production.rhsNames, hrhs]; rfl, rfl⟩⟩

/-- The spans of parsing with costs: those around which there is an estimate. -/
def guidedSpans (hnormal : g.unweighted.isChomskyNormal = true) (tokens : List String) :
    Spans g tokens where
  Covers name i l := ((Estimates.ofGrammar g tokens.length).outside? name i l).isSome
  mark i l := i + l
  rule p := .guided p (.ofGrammar g tokens.length)
  isDownward := by
    refine ⟨fun hcovers => ?_, fun p hp b c t u v w ps qs i hrhs hleft hright hv hw hcovers =>
      Estimates.isSome_outside?_of_binary hnormal hp hrhs hleft hright hv hw hcovers⟩
    rcases Estimates.eq_or_pos_of_outside? hcovers with ⟨-, -, hn⟩ | hpos
    · exact List.length_eq_zero_iff.1 hn.symm
    · cases hpos
  of_join p _ b c i j l m v w ts us f _ _ hjoin := by
    obtain ⟨⟨rfl, -, -, hnames⟩, _, -, _, -, _, hu, rfl⟩ :=
      WeightedRule.joinGuided_eq_some_iff.1 hjoin
    rw [Nat.add_assoc, Nat.add_sub_cancel_left] at hu
    exact ⟨rfl, hnames, Option.isSome_of_eq_some hu, _, _, by rw [Nat.add_assoc]⟩
  exists_join p _ b c i l m v w ts us hrhs hb hc hcovers := by
    obtain ⟨u₁, hu₁⟩ := Option.isSome_iff_exists.1 hb
    obtain ⟨u₂, hu₂⟩ := Option.isSome_iff_exists.1 hc
    obtain ⟨u, hu⟩ := Option.isSome_iff_exists.1 hcovers
    refine ⟨_, WeightedRule.joinGuided_eq_some_iff.2 ⟨⟨rfl, by omega, by omega, ?_⟩, u₁, ?_, u₂,
      ?_, u, ?_, rfl⟩⟩
    · rw [Production.rhsNames, hrhs]
      rfl
    · rwa [Nat.add_sub_cancel_left]
    · rwa [Nat.add_sub_cancel_left]
    · rwa [Nat.add_assoc, Nat.add_sub_cancel_left]

lemma suits_probableSpans (hschema : Schema.weightedCyk g tokens = .ok schema) :
    (probableSpans g tokens).Suits schema := by
  refine ⟨fun a ha x hx => ?_, fun p hp i l hscans _ => ?_,
    fun rule => mem_rules_weightedCyk_iff hschema, fun f => ?_⟩
  · obtain ⟨p, hp, i, l, hscans, rfl⟩ := (exists_mem_axioms_weightedCyk_iff hschema).1 ⟨a, ha, hx⟩
    exact ⟨p, hp, i, l, _, _, hscans, hscans.pos_or_eq_nil, rfl⟩
  · obtain ⟨a, ha, hx⟩ := (exists_mem_axioms_weightedCyk_iff hschema).2
      ⟨p, hp, i, l, hscans, rfl⟩
    exact ⟨a, ha, _, hx, rfl⟩
  · obtain ⟨-, -, hschema⟩ := bind_eq_ok.1 hschema
    obtain rfl := Except.ok.inj hschema
    exact exists_goal_wholeSpan_iff

/-- Around what an axiom is about there is an estimate. Only the start symbol has an empty
production, and around the empty input it has one. -/
lemma suits_guidedSpans (hnormal : g.unweighted.isChomskyNormal = true)
    (hschema : Schema.weightedAStar g tokens = .ok schema) :
    (guidedSpans hnormal tokens).Suits schema := by
  obtain ⟨-, -, hschema⟩ := bind_eq_ok.1 hschema
  obtain rfl := Except.ok.inj hschema
  refine ⟨fun a ha x hx => ?_, fun p hp i l hscans hcovers => ?_, fun rule => ?_, fun f => ?_⟩
  · obtain ⟨p, hp, ha⟩ := List.mem_flatMap.1 ha
    obtain ⟨i, l, v, hscans, hv, rfl⟩ := exists_mem_costAxioms_iff.1 ⟨a, ha, hx⟩
    refine ⟨p, hp, i, l, _, _, hscans, ?_, rfl⟩
    rcases hv with ⟨rfl, -⟩ | ⟨u, hu, rfl, -⟩
    · cases hscans with
      | empty hrhs htokens =>
          subst htokens
          rw [Grammar.lhs_eq_start_of_empty hnormal hp hrhs]
          exact Option.isSome_of_eq_some (Estimates.outside?_start g 0)
    · exact Option.isSome_of_eq_some hu
  · obtain ⟨u, hu⟩ := Option.isSome_iff_exists.1 hcovers
    have hv : ∃ v, l = 0 ∧ v = Weight.cost p.weight ∨
        ∃ u, (Estimates.ofGrammar g tokens.length).outside? p.production.lhs i 1 = some u ∧ l = 1 ∧
          v = Weight.add (Weight.cost p.weight) u := by
      cases hscans with
      | token => exact ⟨_, Or.inr ⟨u, hu, rfl, rfl⟩⟩
      | empty => exact ⟨_, Or.inl ⟨rfl, rfl⟩⟩
    obtain ⟨v, hv⟩ := hv
    obtain ⟨a, ha, hx⟩ := exists_mem_costAxioms_iff.2 ⟨i, l, v, hscans, hv, rfl⟩
    exact ⟨a, List.mem_flatMap.2 ⟨p, hp, ha⟩, _, hx, rfl⟩
  · simp only [Schema.make, List.mem_map, List.mem_filter, and_assoc]
    exact ⟨fun ⟨p, hp, hbinary, heq⟩ => ⟨p, hp, hbinary, heq.symm⟩,
      fun ⟨p, hp, hbinary, heq⟩ => ⟨p, hp, hbinary, heq.symm⟩⟩
  · have hmark : (guidedSpans hnormal tokens).mark 0 tokens.length = tokens.length :=
      Nat.zero_add _
    rw [exists_goal_wholeSpan_iff, hmark]

/-! ### Agreement -/

variable {name : String} {i l : ℕ}

/-- Parsing without weights finds the same spans as parsing with probabilities. -/
lemma exactForms_eq (hnormal : g.unweighted.isChomskyNormal = true) :
    Cyk.exactForms g.unweighted tokens = Cyk.spanForms (probableSpans g tokens).Holds := by
  ext f
  constructor
  · rintro ⟨name, i, l, rfl, ⟨hle, hderives⟩, hcovers⟩
    exact ⟨name, i, l, rfl, hle, hcovers.imp_right And.left, hderives⟩
  · rintro ⟨name, i, l, rfl, hle, hcovers, hderives⟩
    refine Cyk.form_mem_exactForms.2 ⟨⟨hle, hderives⟩, hcovers.imp_right fun htokens => ?_⟩
    subst htokens
    exact ⟨rfl, (Grammar.derives_nil_iff hnormal).1 (by simpa [span, word] using hderives)⟩

/-- The whole input is among these spans if the start symbol derives it. -/
lemma holds_probableSpans_start_iff :
    (probableSpans g tokens).Holds g.start 0 tokens.length ↔ g.unweighted.Generates tokens := by
  have hcovers : 0 < tokens.length ∨ tokens = [] := by
    rw [← List.length_eq_zero_iff]
    omega
  rw [Spans.Holds, Nat.zero_add, span_length]
  exact ⟨fun h => h.2.2, fun h => ⟨le_rfl, hcovers, h⟩⟩

/-- Parsing with estimates finds those of them that have room in a parse of some input of the same
length. -/
lemma holds_guidedSpans_iff (hnormal : g.unweighted.isChomskyNormal = true) :
    (guidedSpans hnormal tokens).Holds name i l ↔ (probableSpans g tokens).Holds name i l ∧
      ∃ others : List String, others.length = tokens.length ∧
        g.unweighted.Uses others name i (i + l) := by
  have hroom : i + l ≤ tokens.length → 0 < l ∨ tokens = [] →
      g.unweighted.Derives [.nonterminal name] (word (span tokens i (i + l))) →
        ((guidedSpans hnormal tokens).Covers name i l ↔ ∃ others : List String,
          others.length = tokens.length ∧ g.unweighted.Uses others name i (i + l)) := by
    intro hle hpos hderives
    have hlength : (span tokens i (i + l)).length = l := by
      rw [length_span hle, Nat.add_sub_cancel_left]
    have hsome := Estimates.isSome_outside?_iff_of_derives (n := tokens.length) hnormal hderives
      (by rwa [hlength]) (by rwa [hlength, List.length_eq_zero_iff])
    have huses := ContextFree.Grammar.hasRoom_iff_exists_uses (n := tokens.length) (i := i) hderives
      (by rwa [hlength])
    rw [hlength] at hsome huses
    exact hsome.trans huses
  constructor
  · rintro ⟨hle, hcovers, hderives⟩
    have hpos : 0 < l ∨ tokens = [] := by
      rcases Estimates.eq_or_pos_of_outside? hcovers with ⟨-, -, rfl⟩ | hpos
      · rw [← List.length_eq_zero_iff]
        omega
      · exact Or.inl hpos
    exact ⟨⟨hle, hpos, hderives⟩, (hroom hle hpos hderives).1 hcovers⟩
  · rintro ⟨⟨hle, hpos, hderives⟩, huses⟩
    exact ⟨hle, (hroom hle hpos hderives).2 huses, hderives⟩

/-- The whole input has room, in its own parse. -/
lemma holds_guidedSpans_start_iff (hnormal : g.unweighted.isChomskyNormal = true) :
    (guidedSpans hnormal tokens).Holds g.start 0 tokens.length ↔
      g.unweighted.Generates tokens := by
  rw [holds_guidedSpans_iff hnormal, holds_probableSpans_start_iff, Nat.zero_add]
  refine and_iff_left_of_imp fun h => ⟨tokens, rfl, ?_, ?_⟩
  · rw [span_self, List.drop_length]
    exact .refl _
  · rwa [span_length]

/-- Parsing with weights agrees with parsing without them, whatever the weights are and however runs
treat consequences that are there. For every weighted grammar in Chomsky normal form and every input
the three schemata exist. Take runs for them that end with an outcome. The chart of parsing with
probabilities has the same forms as that of parsing without weights. That of parsing with costs has
those of them for whose span some input of the same length has a parse with the name over the same
places. And whether something is derivable is the same in all three. -/
theorem weighted_agrees (hnormal : g.unweighted.isChomskyNormal = true) (tokens : List String) :
    ∃ plain probable guided : Schema W,
      Algorithm.cyk.compileTokens (.contextFree g.unweighted) tokens = .ok plain ∧
      Algorithm.weightedCyk.compileTokens (.weighted g) tokens = .ok probable ∧
      Algorithm.weightedAStar.compileTokens (.weighted g) tokens = .ok guided ∧
      ∀ (settings settings' settings'' : Settings) (fuel fuel' fuel'' : ℕ) (o o' o'' : Outcome W),
        Deduction.run settings plain fuel = .ok o →
        Deduction.run settings' probable fuel' = .ok o' →
        Deduction.run settings'' guided fuel'' = .ok o'' →
          o'.chart.forms = o.chart.forms ∧
          (∀ f, f ∈ o''.chart.forms ↔ ∃ name i l, f = Cyk.form name i (i + l) ∧
            Cyk.form name i l ∈ o.chart.forms ∧ ∃ others : List String,
              others.length = tokens.length ∧ g.unweighted.Uses others name i (i + l)) ∧
          o'.isDerivable = o.isDerivable ∧ o''.isDerivable = o.isDerivable := by
  obtain ⟨plain, hplain, hfull⟩ :=
    Cyk.exists_isFullSchema (W := W) (a := .cyk) (Or.inl ⟨rfl, hnormal⟩) tokens
  obtain ⟨probable, hprobable⟩ : ∃ probable, Schema.weightedCyk g tokens = .ok probable :=
    ⟨_, by rw [Schema.weightedCyk, hnormal]; rfl⟩
  obtain ⟨guided, hguided⟩ : ∃ guided, Schema.weightedAStar g tokens = .ok guided :=
    ⟨_, by rw [Schema.weightedAStar, hnormal]; rfl⟩
  refine ⟨plain, probable, guided, hplain, hprobable, hguided, ?_⟩
  intro settings settings' settings'' fuel fuel' fuel'' o o' o'' hrun hrun' hrun''
  obtain ⟨s', hs', rfl⟩ := Deduction.run_eq_ok hrun'
  obtain ⟨s'', hs'', rfl⟩ := Deduction.run_eq_ok hrun''
  have hsuits' := suits_probableSpans hprobable
  have hsuits'' := suits_guidedSpans hnormal hguided
  have hforms : o.chart.forms = Cyk.spanForms (probableSpans g tokens).Holds :=
    (hfull.forms_eq hrun).trans (exactForms_eq hnormal)
  have hmark : Function.Injective ((guidedSpans hnormal tokens).mark 0) :=
    fun _ _ => Nat.add_left_cancel
  refine ⟨?_, fun f => ?_, ?_, ?_⟩
  · rw [hforms]
    exact Set.ext fun f => Spans.mem_forms_iff hsuits' hs' hnormal
  · refine (Spans.mem_forms_iff hsuits'' hs'' hnormal).trans (exists₃_congr fun name i l => ?_)
    rw [hforms, Cyk.form_mem_spanForms, ← holds_guidedSpans_iff hnormal]
    rfl
  · rw [Bool.eq_iff_iff, hfull.isDerivable_iff hrun,
      Spans.isDerivable_iff hsuits' hs' hnormal Function.injective_id,
      holds_probableSpans_start_iff]
  · rw [Bool.eq_iff_iff, hfull.isDerivable_iff hrun,
      Spans.isDerivable_iff hsuits'' hs'' hnormal hmark, holds_guidedSpans_start_iff]

/-- The uses of the first letter in the first way have the probability zero, and its costs come out
undefined. The two letters are derivable all the same, with weights or without. -/
theorem exists_weighted_agrees_hiding :
    GrammarFile.readWeightedGrammar hidingFile = .ok (readingsGrammar 0 1) ∧
      ∃ (plain probable guided : Schema (Exact ℝ)) (fuel fuel' fuel'' : ℕ)
        (o o' o'' : Outcome (Exact ℝ)),
        Algorithm.cyk.compileTokens (.contextFree (readingsGrammar 0 1).unweighted) ["a", "b"] =
          .ok plain ∧
        Algorithm.weightedCyk.compileTokens (.weighted (readingsGrammar 0 1)) ["a", "b"] =
          .ok probable ∧
        Algorithm.weightedAStar.compileTokens (.weighted (readingsGrammar 0 1)) ["a", "b"] =
          .ok guided ∧
        Deduction.run ⟨.accumulate, none⟩ plain fuel = .ok o ∧
        Deduction.run ⟨.higherWins, none⟩ probable fuel' = .ok o' ∧
        Deduction.run ⟨.lowerWins, none⟩ guided fuel'' = .ok o'' ∧
          o.isDerivable = true ∧ o'.isDerivable = true ∧ o''.isDerivable = true := by
  have hnormal : (readingsGrammar 0 1).unweighted.isChomskyNormal = true := by decide
  have hg : (readingsGrammar 0 1).unweighted.IsWellFormed :=
    GrammarFile.isWellFormed_of_readWeightedGrammar read_hidingFile
  obtain ⟨plain, probable, guided, hplain, hprobable, hguided, hall⟩ :=
    weighted_agrees hnormal ["a", "b"]
  have hcyk : Schema.cyk (readingsGrammar 0 1).unweighted ["a", "b"] = .ok plain := hplain
  have hweighted : Schema.weightedCyk (readingsGrammar 0 1) ["a", "b"] = .ok probable := hprobable
  obtain ⟨fuel, o, hrun⟩ : ∃ fuel o, Deduction.run ⟨.accumulate, none⟩ plain fuel = .ok o :=
    Deduction.exists_run_of_composes rfl rfl
      ((Cyk.isNormalSchema_cyk hcyk).toIsSpanSchema.composes hg)
  obtain ⟨fuel', o', hrun'⟩ : ∃ fuel o, Deduction.run ⟨.higherWins, none⟩ probable fuel = .ok o :=
    (joinsSpans_weightedCyk hnormal hweighted).exists_run nofun
  obtain ⟨fuel'', o'', hrun''⟩ : ∃ fuel o, Deduction.run ⟨.lowerWins, none⟩ guided fuel = .ok o :=
    (joinsSpans_weightedAStar hnormal hguided).exists_run nofun
  obtain ⟨-, -, hplain', hguided'⟩ := hall _ _ _ _ _ _ o o' o'' hrun hrun' hrun''
  have hderivable : o'.isDerivable = true := by
    obtain ⟨s, hs, rfl⟩ := Deduction.run_eq_ok hrun'
    exact (Spans.isDerivable_iff (suits_probableSpans hweighted) hs hnormal
      Function.injective_id).2
        (holds_probableSpans_start_iff.2 (parses_readings 0 1).spells.derives)
  have hderivable' := hplain'.symm.trans hderivable
  exact ⟨read_hidingFile, plain, probable, guided, fuel, fuel', fuel'', o, o', o'', hplain,
    hprobable, hguided, hrun, hrun', hrun'', hderivable', hderivable, hguided'.trans hderivable'⟩

end Weighted

end DeductiveParsing
