/-
The rules and the axioms of parsing with weights.

* `WeightedRule.join`: the consequence of two antecedents in their order;
* `WeightedRule.kept_of_join`: runs take notice of it, however they do that;
* `WeightedRule.joinProduct_eq_some_iff`, `joinGuided_eq_some_iff`: which spans are joined, and the
  weight of both together;
* `WeightedRule.joinedTrees_eq`: two antecedents with one tree each have one tree together;
* `Weighted.Scans`: the spans that axioms are about;
* `Weighted.IsDownward`: choices of spans that include the parts of every span in them;
* `Weighted.IsDownward.induction`: parses of these are built from axioms by joining parts.
-/
import DeductiveParsing.Proofs.Deduction.Exhaustion
import DeductiveParsing.Proofs.Inference.Directed
import DeductiveParsing.Proofs.Weighted.Parses
import DeductiveParsing.Schema.Weighted

namespace DeductiveParsing

variable {W : Type} [Weight W]

namespace WeightedRule

variable {r : WeightedRule W} {p : Weighted.Production W} {x y : Item W} {xs : List (Item W)}
  {f : Firing W} {b c : String} {i j l m : ℕ} {v w : W} {ts us : List Tree}

/-- The consequence of two antecedents in their order. -/
def join : WeightedRule W → Item W → Item W → Option (Firing W)
  | product p => joinProduct p
  | guided p estimates => joinGuided p estimates

lemma fire_pair (r : WeightedRule W) (x y : Item W) :
    r.fire [x, y] = Firing.eitherOrder? r.join x y := by cases r <;> rfl

lemma isDirected_join (r : WeightedRule W) : Firing.IsDirected Cyk.IsSpan r.join := by
  cases r with
  | product p => exact isDirected_joinProduct p
  | guided p estimates => exact isDirected_joinGuided p estimates

/-- A rule concludes what it joins. -/
lemma fire?_of_join (h : r.join x y = some f) : (Rule.weighted r).fire? [x, y] = some f := by
  have hfire : (Rule.weighted r).fire [x, y] = some f :=
    (fire_pair r x y).trans (by rw [Firing.eitherOrder?, h])
  exact Rule.fire?_eq_some.2 ⟨rfl, hfire⟩

/-- A rule concludes only what it joins in one of the orders. -/
lemma exists_of_fire? (h : (Rule.weighted r).fire? xs = some f) :
    ∃ x y, xs.Perm [x, y] ∧ r.join x y = some f := by
  obtain ⟨hlen, hfire⟩ := Rule.fire?_eq_some.1 h
  obtain ⟨x, y, rfl⟩ := List.length_eq_two.1 hlen
  rcases Firing.eq_some_of_eitherOrder? ((fire_pair r x y).symm.trans hfire) with hjoin | hjoin
  · exact ⟨x, y, .refl _, hjoin⟩
  · exact ⟨y, x, .swap _ _ _, hjoin⟩

/-- A rule concludes the same from all orders of spans with different forms. -/
lemma fire?_perm {ys : List (Item W)} (hspans : ∀ x ∈ xs, Cyk.IsSpan x) (hperm : ys.Perm xs)
    (hnodup : (xs.map Item.form).Nodup) (h : (Rule.weighted r).fire? xs = some f) :
    (Rule.weighted r).fire? ys = some f := by
  obtain ⟨hlen, hfire⟩ := Rule.fire?_eq_some.1 h
  exact Rule.fire?_eq_some.2 ⟨hperm.length_eq.trans hlen, Rule.fire_perm_of_isDirected
    r.isDirected_join r.fire_pair hlen hspans hperm hnodup hfire⟩

/-- At the end of a run, notice has been taken of what a rule joins from two spans of the chart. -/
lemma kept_of_join {settings : Settings} {schema : Schema W} {fuel : ℕ} {s : Deduction.State W}
    (upkeep : Deduction.Upkeep W settings) (h : Deduction.finalState settings schema fuel = .ok s)
    (hrule : .weighted r ∈ schema.rules) (hx : x ∈ s.chart.items) (hy : y ∈ s.chart.items)
    (hspan : Cyk.IsSpan x) (hspan' : Cyk.IsSpan y) (hne : x.form ≠ y.form)
    (hjoin : r.join x y = some f) {z : Item W} (hz : z ∈ f.items) : upkeep.Kept s.chart z := by
  have hfire := fire?_of_join hjoin
  have hforms : ([x, y].map Item.form).Nodup := by simpa using hne
  obtain ⟨zs, hperm, hkept⟩ := upkeep.kept_of_finalState h hrule (Rule.fire?_eq_some.1 hfire).1
    (by simp [hx, hy]) hforms
  exact hkept f (fire?_perm (by simp [hspan, hspan']) hperm hforms hfire) z hz

/-! ### Spans -/

/-- Which spans with probabilities are joined, and to what. -/
lemma joinProduct_eq_some_iff :
    joinProduct p ⟨Cyk.form b i l, some v, ts⟩ ⟨Cyk.form c j m, some w, us⟩ = some f ↔
      i + l = j ∧ p.production.rhsNames.take 2 = [b, c] ∧
        ⟨name (product p), [⟨Cyk.form p.production.lhs i (l + m),
          some (Weight.mul (Weight.mul p.weight v) w),
          Forest.fillings (Tree.ofProduction p.production) [ts, us]⟩]⟩ = f := by
  have hjoin : joinProduct p ⟨Cyk.form b i l, some v, ts⟩ ⟨Cyk.form c j m, some w, us⟩ =
      if i + l = j ∧ p.production.rhsNames.take 2 = [b, c] then
        some ⟨name (product p), [⟨Cyk.form p.production.lhs i (l + m),
          some (Weight.mul (Weight.mul p.weight v) w),
          Forest.fillings (Tree.ofProduction p.production) [ts, us]⟩]⟩
      else none := rfl
  simp only [hjoin, Option.ite_none_right_eq_some, Option.some.injEq, and_assoc]

/-- Which spans with costs are joined, and to what. -/
lemma joinGuided_eq_some_iff {estimates : Weighted.Estimates W} {j' k : ℕ} :
    joinGuided p estimates ⟨Cyk.form b i j, some v, ts⟩ ⟨Cyk.form c j' k, some w, us⟩ = some f ↔
      (j = j' ∧ i ≤ j ∧ j ≤ k ∧ p.production.rhsNames.take 2 = [b, c]) ∧
        ∃ u₁, estimates.outside? b i (j - i) = some u₁ ∧
          ∃ u₂, estimates.outside? c j (k - j) = some u₂ ∧
            ∃ u, estimates.outside? p.production.lhs i (k - i) = some u ∧
              ⟨name (guided p estimates), [⟨Cyk.form p.production.lhs i k,
                some (Weight.add (Weight.add (Weight.add (Weight.cost p.weight) (Weight.sub v u₁))
                  (Weight.sub w u₂)) u),
                Forest.fillings (Tree.ofProduction p.production) [ts, us]⟩]⟩ = f := by
  have hjoin : joinGuided p estimates ⟨Cyk.form b i j, some v, ts⟩ ⟨Cyk.form c j' k, some w, us⟩ =
      if j = j' ∧ i ≤ j ∧ j ≤ k ∧ p.production.rhsNames.take 2 = [b, c] then
        (estimates.outside? b i (j - i)).bind fun u₁ => (estimates.outside? c j (k - j)).bind
          fun u₂ => (estimates.outside? p.production.lhs i (k - i)).bind fun u =>
            some ⟨name (guided p estimates), [⟨Cyk.form p.production.lhs i k,
              some (Weight.add (Weight.add (Weight.add (Weight.cost p.weight) (Weight.sub v u₁))
                (Weight.sub w u₂)) u),
              Forest.fillings (Tree.ofProduction p.production) [ts, us]⟩]⟩
      else none := rfl
  simp only [hjoin, Option.ite_none_right_eq_some, Option.bind_eq_some_iff, Option.some.injEq]

omit [Weight W] in
/-- Two trees are filled into the tree of a binary production in one way. -/
lemma fillings_eq {g : ContextFree.Grammar} (hg : g.IsWellFormed) {p : Production}
    (hp : p ∈ g.productions) (hrhs : p.rhs = [.nonterminal b, .nonterminal c]) {t u : Tree}
    {v w : List String} (ht : g.Spells [.nonterminal b] [t] v)
    (hu : g.Spells [.nonterminal c] [u] w) :
    Forest.fillings (Tree.ofProduction p) [[t], [u]] = [.above p.lhs [t, u]] := by
  have hdeclares := hg.declares hp
  rw [hrhs] at hdeclares
  obtain ⟨rfl, hfrontier⟩ := Cyk.label_and_not_mem_frontier hg ht
  obtain ⟨rfl, -⟩ := Cyk.label_and_not_mem_frontier hg hu
  have hsecond : .nonterminal u.label ∈ [Symbol.nonterminal t.label, .nonterminal u.label] := by
    simp
  have hbase : Tree.ofProduction p = .above p.lhs [.leaf t.label, .leaf u.label] := by
    rw [Tree.ofProduction_eq_above, hrhs]
    rfl
  have hleft : (Tree.above p.lhs ([] ++ .leaf t.label :: [.leaf u.label])).substituteLeftmost? t =
      some (.above p.lhs ([] ++ t :: [.leaf u.label])) :=
    Tree.substituteLeftmost?_above nofun (hdeclares.isOpen List.mem_cons_self)
  have hright : (Tree.above p.lhs ([t] ++ .leaf u.label :: [])).substituteLeftmost? u =
      some (.above p.lhs ([t] ++ u :: [])) :=
    Tree.substituteLeftmost?_above
      (by simpa using hfrontier u.label (hdeclares.mem hsecond)) (hdeclares.isOpen hsecond)
  have hall : Forest.substituteAll? (Tree.ofProduction p) [t, u] = some (.above p.lhs [t, u]) := by
    rw [hbase]
    exact Option.bind_eq_some_iff.2 ⟨_, hleft, Option.bind_eq_some_iff.2 ⟨_, hright, rfl⟩⟩
  exact List.filterMap_cons_some hall

end WeightedRule

/-! ### Axioms -/

namespace Weighted

/-- The spans that a production covers at once: that of a token, and the empty input. -/
inductive Scans (tokens : List String) (p : DeductiveParsing.Production) : ℕ → ℕ → Prop where
  | token {a : String} {i : ℕ} (hrhs : p.rhs = [.terminal a]) (htoken : tokens[i]? = some a) :
      Scans tokens p i 1
  | empty (hrhs : p.rhs = []) (htokens : tokens = []) : Scans tokens p 0 0

variable {g : Grammar W} {tokens : List String} {p : Production W} {i l : ℕ}

omit [Weight W] in
/-- A production that covers tokens at once is a parse of them. -/
lemma Scans.parses (hp : p ∈ g.productions) (h : Scans tokens p.production i l) :
    i + l ≤ tokens.length ∧ g.Parses [.nonterminal p.production.lhs]
      [.ofProduction p.production] (span tokens i (i + l)) [p] := by
  cases h with
  | token hrhs htoken =>
      refine ⟨(List.getElem?_eq_some_iff.1 htoken).1, ?_⟩
      rw [span_succ htoken]
      exact .of_lexical hp hrhs
  | empty hrhs htokens =>
      refine ⟨Nat.zero_le _, ?_⟩
      rw [htokens]
      exact .of_empty hp hrhs

/-- What is covered at once is a token or the empty input. -/
lemma Scans.pos_or_eq_nil {p : DeductiveParsing.Production} (h : Scans tokens p i l) :
    0 < l ∨ tokens = [] := by
  cases h with
  | token => exact Or.inl Nat.one_pos
  | empty _ htokens => exact Or.inr htokens

/-- Only one production of a name covers given tokens at once. -/
lemma Scans.eq_of_lhs {p q : DeductiveParsing.Production} (hp : Scans tokens p i l)
    (hq : Scans tokens q i l) (hlhs : p.lhs = q.lhs) : p = q := by
  obtain ⟨lhs, rhs⟩ := p
  obtain ⟨lhs', rhs'⟩ := q
  obtain rfl : lhs = lhs' := hlhs
  cases hp with
  | token hrhs htoken =>
      cases hq with
      | token hrhs' htoken' =>
          obtain rfl := Option.some.inj (htoken.symm.trans htoken')
          obtain rfl := hrhs.trans hrhs'.symm
          rfl
  | empty hrhs _ =>
      cases hq with
      | empty hrhs' _ =>
          obtain rfl := hrhs.trans hrhs'.symm
          rfl

/-! ### Choices of spans -/

/-- Whether a choice of spans includes both parts of every parse of a span in it, and an empty span
only of the empty input. -/
structure IsDownward (g : Grammar W) (tokens : List String) (Covers : String → ℕ → ℕ → Prop) :
    Prop where
  covers_zero : ∀ {name : String} {i : ℕ}, Covers name i 0 → tokens = []
  covers_parts : ∀ p ∈ g.productions, ∀ {b c : String} {t u : Tree} {v w : List String}
    {ps qs : List (Production W)} {i : ℕ}, p.production.rhs = [.nonterminal b, .nonterminal c] →
      g.Parses [.nonterminal b] [t] v ps → g.Parses [.nonterminal c] [u] w qs → v ≠ [] → w ≠ [] →
        Covers p.production.lhs i (v.length + w.length) →
          Covers b i v.length ∧ Covers c (i + v.length) w.length

omit [Weight W] in
/-- The parses of spans in such a choice are built from those that a production covers at once, by
joining two parts in the choice. -/
theorem IsDownward.induction {Covers : String → ℕ → ℕ → Prop}
    (h : IsDownward g tokens Covers) (hnormal : g.unweighted.isChomskyNormal = true)
    {motive : String → ℕ → ℕ → List (Production W) → Prop}
    (scans : ∀ p ∈ g.productions, ∀ i l, Scans tokens p.production i l →
      Covers p.production.lhs i l → motive p.production.lhs i l [p])
    (parts : ∀ p ∈ g.productions, ∀ b c i l m ps qs,
      p.production.rhs = [.nonterminal b, .nonterminal c] → 0 < l → ps ⊆ g.productions →
        qs ⊆ g.productions → Covers p.production.lhs i (l + m) → Covers b i l →
          Covers c (i + l) m → motive b i l ps → motive c (i + l) m qs →
            motive p.production.lhs i (l + m) (p :: (ps ++ qs)))
    {name : String} {t : Tree} {ps : List (Production W)}
    (hparses : g.Parses [.nonterminal name] [t] (span tokens i (i + l)) ps)
    (hle : i + l ≤ tokens.length) (hcovers : Covers name i l) : motive name i l ps := by
  obtain ⟨w, hw⟩ : ∃ w, span tokens i (i + l) = w := ⟨_, rfl⟩
  obtain rfl : w.length = l := by rw [← hw, length_span hle, Nat.add_sub_cancel_left]
  rw [hw] at hparses
  refine Grammar.Parses.induction_chomsky hnormal (motive := fun name _ w ps => ∀ i,
    i + w.length ≤ tokens.length → span tokens i (i + w.length) = w → Covers name i w.length →
      motive name i w.length ps) ?lexical ?empty ?binary hparses i hle hw hcovers
  case lexical =>
    intro p hp a hrhs i hle hw hcovers
    have hlt : i < tokens.length := hle
    have htoken : tokens[i]? = some a := by
      have hone := span_succ (List.getElem?_eq_getElem hlt)
      rw [List.getElem?_eq_getElem hlt, ← List.singleton_injective (hone.symm.trans hw)]
    exact scans p hp i 1 (.token hrhs htoken) hcovers
  case empty =>
    intro p hp hrhs i hle _ hcovers
    have htokens : tokens = [] := h.covers_zero hcovers
    obtain rfl : i = 0 := by
      rw [htokens] at hle
      exact Nat.le_zero.1 hle
    exact scans p hp 0 0 (.empty hrhs htokens) hcovers
  case binary =>
    intro p hp b c t₁ t₂ u v qs rs hrhs hleft hright hu hv ihleft ihright i hle hw hcovers
    rw [List.length_append] at hle hw hcovers ⊢
    obtain ⟨hcovers₁, hcovers₂⟩ := h.covers_parts p hp hrhs hleft hright hu hv hcovers
    -- the word is split where the first part ends
    have hsplit : span tokens i (i + u.length) ++
        span tokens (i + u.length) (i + u.length + v.length) = _ :=
      span_append (by omega) (by omega)
    rw [Nat.add_assoc, hw] at hsplit
    obtain ⟨hw₁, hw₂⟩ := List.append_inj hsplit (by
      rw [length_span (by omega), Nat.add_sub_cancel_left])
    rw [← Nat.add_assoc] at hw₂
    exact parts p hp b c i u.length v.length qs rs hrhs (List.length_pos_iff.2 hu)
      (fun q hq => hleft.mem_productions q hq) (fun q hq => hright.mem_productions q hq) hcovers
        hcovers₁ hcovers₂ (ihleft i (by omega) hw₁ hcovers₁) (ihright _ (by omega) hw₂ hcovers₂)

/-! ### Goals -/

omit [Weight W] in
/-- The goal is the start symbol over the whole input. -/
lemma exists_goal_wholeSpan_iff {axioms : List (Axiom W)} {rules : List (Rule W)} {f : Form} :
    (∃ x ∈ (Schema.make axioms rules [Schema.wholeSpan g.start tokens]).goals, x.form = f) ↔
      f = Cyk.form g.start 0 tokens.length := by
  constructor
  · rintro ⟨x, hx, rfl⟩
    exact Cyk.form_of_mem_goals (g := g.unweighted) hx
  · rintro rfl
    exact Cyk.exists_goal_wholeSpan (g := g.unweighted) axioms rules

end Weighted

end DeductiveParsing
