/-
Parsing with weights comes to an end, whatever the weights are.

* `Schema.Yields`: the items that axioms and rules give at all;
* `finite_yields`: they are finitely many if consequences are larger than their antecedents and do
  not exceed a bound;
* `Weighted.JoinsSpans`: schemas whose rules join two spans as binary productions say;
* `Weighted.JoinsSpans.exists_run`: runs of these end.
-/
import DeductiveParsing.Proofs.Deduction.Stock
import DeductiveParsing.Proofs.Weighted.Rules

namespace DeductiveParsing

variable {W : Type} [Weight W] {schema : Schema W}

/-! ### Items that are given at all -/

/-- The items that axioms give, and those that rules conclude from such items. -/
inductive Schema.Yields (schema : Schema W) : Item W → Prop where
  | given {a : Axiom W} {x : Item W} (ha : a ∈ schema.axioms) (hx : x ∈ a.items) :
      Yields schema x
  | concluded {rule : Rule W} {xs : List (Item W)} {f : Firing W} {y : Item W}
      (hrule : rule ∈ schema.rules) (hxs : ∀ x ∈ xs, Yields schema x)
      (hf : rule.fire? xs = some f) (hy : y ∈ f.items) : Yields schema y

/-- If consequences are larger than their antecedents and not larger than some bound, there are
finitely many items. The induction is on the size. -/
theorem finite_yields (size : Item W → ℕ) (n : ℕ) (hbound : ∀ x, schema.Yields x → size x ≤ n)
    (hsize : ∀ rule ∈ schema.rules, ∀ (xs : List (Item W)) (f : Firing W),
      (∀ x ∈ xs, schema.Yields x) → rule.fire? xs = some f → ∀ y ∈ f.items, ∀ x ∈ xs,
        size x < size y) :
    {x | schema.Yields x}.Finite := by
  have hbelow : ∀ k, {x | schema.Yields x ∧ size x < k}.Finite := by
    intro k
    induction k with
    | zero => exact Set.finite_empty.subset fun x hx => absurd hx.2 (Nat.not_lt_zero _)
    | succ k ih =>
        have hgiven : {x | ∃ a ∈ schema.axioms, x ∈ a.items}.Finite := by
          refine ((List.finite_toSet schema.axioms).biUnion fun a _ =>
            List.finite_toSet a.items).subset ?_
          rintro x ⟨a, ha, hx⟩
          exact Set.mem_biUnion ha hx
        -- antecedents are smaller, so there are finitely many choices of them
        have hconcluded : {y | ∃ rule ∈ schema.rules, ∃ xs ∈ {xs : List (Item W) |
            xs.length ≤ rule.arity ∧ ∀ x ∈ xs, x ∈ ih.toFinset.toList}, ∃ f,
              rule.fire? xs = some f ∧ y ∈ f.items}.Finite := by
          refine ((List.finite_toSet schema.rules).biUnion fun rule _ =>
            (Choice.finite_lists ih.toFinset.toList rule.arity).biUnion fun xs _ =>
              List.finite_toSet ((rule.fire? xs).elim [] Firing.items)).subset ?_
          rintro y ⟨rule, hrule, xs, hxs, f, hf, hy⟩
          refine Set.mem_biUnion hrule (Set.mem_biUnion hxs ?_)
          rw [hf]
          exact hy
        refine (hgiven.union hconcluded).subset ?_
        rintro y ⟨hy, hlt⟩
        cases hy with
        | given ha hx => exact Or.inl ⟨_, ha, hx⟩
        | @concluded rule xs f y hrule hxs hf hmem =>
            refine Or.inr ⟨rule, hrule, xs, ⟨(Rule.fire?_eq_some.1 hf).1.le, fun x hx => ?_⟩, f,
              hf, hmem⟩
            have hsmall := hsize rule hrule xs f hxs hf y hmem x hx
            simpa using ⟨hxs x hx, by omega⟩
  exact (hbelow (n + 1)).subset fun x hx => ⟨hx, Nat.lt_succ_of_le (hbound x hx)⟩

/-- What a schema gives at all is a stock for its runs, if that is finite. -/
def Schema.Stock.ofYields (hfinite : {x | schema.Yields x}.Finite) : schema.Stock where
  items := {x | schema.Yields x}
  finite := hfinite
  produces := ⟨fun _ ha _ hx => .given ha hx, fun _ hrule _ _ hxs hf _ hy => .concluded hrule hxs hf hy⟩

/-! ### Spans -/

namespace Weighted

variable {g : Grammar W} {tokens : List String} {mark extent : ℕ → ℕ → ℕ} {x : Item W}

/-- Whether a schema has axioms for spans that productions cover at once, and rules that join two
spans in a row as binary productions say. The number that stands for a span in an item, besides the
place where it begins, is its mark. -/
structure JoinsSpans (g : Grammar W) (tokens : List String) (mark extent : ℕ → ℕ → ℕ)
    (schema : Schema W) : Prop where
  isChomskyNormal : g.unweighted.isChomskyNormal = true
  extent_mark : ∀ i l, extent i (mark i l) = l
  of_axiom : ∀ a ∈ schema.axioms, ∀ x ∈ a.items, ∃ p ∈ g.productions, ∃ i l v ts,
    Scans tokens p.production i l ∧ x = ⟨Cyk.form p.production.lhs i (mark i l), some v, ts⟩
  of_rule : ∀ rule ∈ schema.rules, ∃ p ∈ g.productions, p.production.isBinary = true ∧
    ∃ r, rule = .weighted r ∧ ∀ b c i j l m v w ts us f,
      r.join ⟨Cyk.form b i (mark i l), some v, ts⟩ ⟨Cyk.form c j (mark j m), some w, us⟩ =
        some f → i + l = j ∧ p.production.rhsNames.take 2 = [b, c] ∧
          ∃ z us', f.items = [⟨Cyk.form p.production.lhs i (mark i (l + m)), some z, us'⟩]

/-- Whether an item is a weighted span. Only one for the left-hand side of an empty production can
be empty. -/
def IsPlaced (g : Grammar W) (tokens : List String) (mark : ℕ → ℕ → ℕ) (x : Item W) : Prop :=
  ∃ name i l v ts, x = ⟨Cyk.form name i (mark i l), some v, ts⟩ ∧ i + l ≤ tokens.length ∧
    (l = 0 → ⟨name, []⟩ ∈ g.unweighted.productions)

/-- How many tokens a weighted span covers. -/
def extentOf (extent : ℕ → ℕ → ℕ) (x : Item W) : ℕ :=
  extent ((x.index? 1).getD 0) ((x.index? 2).getD 0)

omit [Weight W] in
lemma extentOf_span (hmark : ∀ i l, extent i (mark i l) = l) (name : String) (i l : ℕ) (v : W)
    (ts : List Tree) : extentOf extent ⟨Cyk.form name i (mark i l), some v, ts⟩ = l := hmark i l

namespace JoinsSpans

variable (h : JoinsSpans g tokens mark extent schema)
include h

/-- A rule joins two spans that cover a token each to one that covers all their tokens. -/
lemma exists_of_fire {rule : Rule W} (hrule : rule ∈ schema.rules) {xs : List (Item W)}
    {f : Firing W} (hxs : ∀ x ∈ xs, IsPlaced g tokens mark x) (hf : rule.fire? xs = some f) :
    ∃ l m, 0 < l ∧ 0 < m ∧ (∀ x ∈ xs, extentOf extent x = l ∨ extentOf extent x = m) ∧
      ∀ y ∈ f.items, IsPlaced g tokens mark y ∧ extentOf extent y = l + m := by
  obtain ⟨p, hp, hbinary, r, rfl, hjoin⟩ := h.of_rule rule hrule
  obtain ⟨x, y, hperm, hf⟩ := WeightedRule.exists_of_fire? hf
  obtain ⟨b, i, l, v, ts, rfl, hle, hempty⟩ := hxs x (hperm.symm.subset (by simp))
  obtain ⟨c, j, m, w, us, rfl, hle', hempty'⟩ := hxs y (hperm.symm.subset (by simp))
  obtain ⟨rfl, hnames, z, us', hitems⟩ := hjoin b c i j l m v w ts us f hf
  obtain ⟨b', c', hrhs⟩ := Cyk.rhs_of_isBinary hbinary
  obtain ⟨rfl, rfl⟩ : b' = b ∧ c' = c := by
    simpa [Production.rhsNames, hrhs, Symbol.name] using hnames
  have hpos : ∀ {s : Symbol} {k : ℕ}, s ∈ p.production.rhs →
      (k = 0 → ⟨s.name, []⟩ ∈ g.unweighted.productions) → 0 < k := fun hs hk =>
    Nat.pos_of_ne_zero fun h0 => ContextFree.Grammar.empty_not_mem_productions
      (ContextFree.Grammar.isTwoForm_of_isChomskyNormal h.isChomskyNormal)
        (Grammar.mem_unweighted hp) hs (hk h0)
  have hl : 0 < l := hpos (s := .nonterminal b') (by simp [hrhs]) hempty
  have hm : 0 < m := hpos (s := .nonterminal c') (by simp [hrhs]) hempty'
  refine ⟨l, m, hl, hm, fun x hx => ?_, fun y hy => ?_⟩
  · have hmem := hperm.subset hx
    simp only [List.mem_cons, List.not_mem_nil, or_false] at hmem
    rcases hmem with rfl | rfl
    · exact Or.inl (extentOf_span h.extent_mark ..)
    · exact Or.inr (extentOf_span h.extent_mark ..)
  · rw [hitems, List.mem_singleton] at hy
    subst hy
    exact ⟨⟨_, i, l + m, z, us', rfl, by omega, fun h0 => by omega⟩,
      extentOf_span h.extent_mark ..⟩

lemma isPlaced_of_yields (hx : schema.Yields x) : IsPlaced g tokens mark x := by
  induction hx with
  | given ha hx =>
      obtain ⟨p, hp, i, l, v, ts, hscans, rfl⟩ := h.of_axiom _ ha _ hx
      refine ⟨_, i, l, v, ts, rfl, (hscans.parses hp).1, fun hl => ?_⟩
      cases hscans with
      | token => cases hl
      | empty hrhs =>
          exact ContextFree.Grammar.mem_of_rhs_eq_nil (Grammar.mem_unweighted hp) hrhs
  | concluded hrule _ hf hy ih =>
      obtain ⟨l, m, -, -, -, hall⟩ := h.exists_of_fire hrule ih hf
      exact (hall _ hy).1

/-- All items in a chart are weighted spans, whatever happens to consequences that are there. -/
lemma preserves_isPlaced : schema.Preserves (IsPlaced g tokens mark) where
  of_axiom a ha x hx := h.isPlaced_of_yields (.given ha hx)
  of_fire rule hrule xs f hxs hf y hy := by
    obtain ⟨l, m, -, -, -, hall⟩ := h.exists_of_fire hrule hxs hf
    exact (hall y hy).1
  of_merge x y hx _ _ := by
    obtain ⟨name, i, l, v, ts, rfl, hplaced⟩ := hx
    exact ⟨name, i, l, v, _, rfl, hplaced⟩

/-- A span in the chart at the end of a run has a weight. -/
lemma exists_item_of_form {settings : Settings} {fuel : ℕ} {s : Deduction.State W}
    (hs : Deduction.finalState settings schema fuel = .ok s) {name : String} {i j : ℕ}
    (hform : Cyk.form name i j ∈ s.chart.forms) :
    ∃ v ts, ⟨Cyk.form name i j, some v, ts⟩ ∈ s.chart.items := by
  obtain ⟨x, hx, hxform⟩ := Chart.mem_forms_iff.1 hform
  obtain ⟨_, _, _, v, ts, rfl, -⟩ := Deduction.holds_of_finalState h.preserves_isPlaced hs x hx
  exact ⟨v, ts, hxform ▸ hx⟩

/-- Such a schema gives finitely many items. -/
theorem finite_yields : {x | schema.Yields x}.Finite := by
  refine DeductiveParsing.finite_yields (extentOf extent) tokens.length
    (fun x hx => ?_) fun rule hrule xs f hxs hf y hy x hx => ?_
  · obtain ⟨name, i, l, v, ts, rfl, hle, -⟩ := h.isPlaced_of_yields hx
    rw [extentOf_span h.extent_mark]
    omega
  · obtain ⟨l, m, hl, hm, hantecedents, hall⟩ :=
      h.exists_of_fire hrule (fun x hx => h.isPlaced_of_yields (hxs x hx)) hf
    rw [(hall y hy).2]
    rcases hantecedents x hx with heq | heq <;> omega

/-- Runs of such a schema that keep the best derivations end. -/
theorem exists_run [OrderedWeight W] {policy : Policy} (hpolicy : policy ≠ .accumulate) :
    ∃ fuel o, Deduction.run ⟨policy, none⟩ schema fuel = .ok o :=
  Deduction.exists_run_of_stock hpolicy rfl (.ofYields h.finite_yields)

end JoinsSpans

end Weighted

end DeductiveParsing
