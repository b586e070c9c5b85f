/-
How a run that keeps the best derivations finds best parses, whatever weights are.

* `Weighing`: values of parses, in an order in which greater ones are better, and weights of spans
  by which better values are preferred; a rule joins the weights of two parts to that of both;
* `Weighing.IsSound`: an item carries the tree of one parse, and has its weight;
* `Weighing.exists_item`: no parse is better than what the chart has for its span at the end;
* `Weighing.entry_exact`: every entry is that of a best parse.
-/
import DeductiveParsing.Proofs.Deduction.Replacement
import DeductiveParsing.Proofs.Weighted.Rules

namespace DeductiveParsing.Weighted

variable {W V : Type} [Weight W] [LinearOrder V] {g : Grammar W} {tokens : List String}
  {policy : Policy}

/-- A weighing of the parses of a grammar: values of parses, which do not become worse when the
values of parts become better; which spans are considered, how they are written in items, and which
weight they have there for a value; and rules that join two spans as their productions say. -/
structure Weighing (g : Grammar W) (tokens : List String) (policy : Policy) (V : Type)
    [LinearOrder V] where
  value : List (Production W) → V
  Covers : String → ℕ → ℕ → Prop
  mark : ℕ → ℕ → ℕ
  weigh : String → ℕ → ℕ → V → W
  rule : Production W → WeightedRule W
  mark_injective : ∀ {i l l' : ℕ}, mark i l = mark i l' → l = l'
  value_mono : ∀ p ∈ g.productions, ∀ {ps ps' qs qs' : List (Production W)},
    ps ⊆ g.productions → ps' ⊆ g.productions → qs ⊆ g.productions → qs' ⊆ g.productions →
      value ps ≤ value ps' → value qs ≤ value qs' →
        value (p :: (ps ++ qs)) ≤ value (p :: (ps' ++ qs'))
  prefers_iff : ∀ {name : String} {i l : ℕ} (v v' : V), Covers name i l →
    (policy.prefers (some (weigh name i l v)) (some (weigh name i l v')) = true ↔ v' < v)
  covers_zero : ∀ {name : String} {i : ℕ}, Covers name i 0 → tokens = []
  covers_parts : ∀ p ∈ g.productions, ∀ {b c : String} {t u : Tree} {v w : List String}
    {ps qs : List (Production W)} {i : ℕ}, p.production.rhs = [.nonterminal b, .nonterminal c] →
      g.Parses [.nonterminal b] [t] v ps → g.Parses [.nonterminal c] [u] w qs → v ≠ [] → w ≠ [] →
        Covers p.production.lhs i (v.length + w.length) →
          Covers b i v.length ∧ Covers c (i + v.length) w.length
  join_iff : ∀ p ∈ g.productions, ∀ {b c : String} {i j l m : ℕ} {ps qs : List (Production W)}
    {t u : Tree} {f : Firing W}, Covers b i l → Covers c j m → ps ⊆ g.productions →
      qs ⊆ g.productions →
        ((rule p).join ⟨Cyk.form b i (mark i l), some (weigh b i l (value ps)), [t]⟩
          ⟨Cyk.form c j (mark j m), some (weigh c j m (value qs)), [u]⟩ = some f ↔
            (i + l = j ∧ p.production.rhsNames.take 2 = [b, c] ∧
              Covers p.production.lhs i (l + m)) ∧
            ⟨(rule p).name, [⟨Cyk.form p.production.lhs i (mark i (l + m)),
              some (weigh p.production.lhs i (l + m) (value (p :: (ps ++ qs)))),
              Forest.fillings (Tree.ofProduction p.production) [[t], [u]]⟩]⟩ = f)

namespace Weighing

/-! ### Items -/

variable (h : Weighing g tokens policy V)

/-- The item of a span for a parse. -/
def item (name : String) (i l : ℕ) (ps : List (Production W)) (t : Tree) : Item W :=
  ⟨Cyk.form name i (h.mark i l), some (h.weigh name i l (h.value ps)), [t]⟩

/-- Whether a tree is a parse of a span that is considered. -/
structure IsParse (name : String) (i l : ℕ) (ps : List (Production W)) (t : Tree) : Prop where
  le_length : i + l ≤ tokens.length
  covers : h.Covers name i l
  parses : g.Parses [.nonterminal name] [t] (span tokens i (i + l)) ps

/-- Whether an item is that of a span for one of its parses. -/
def IsSound (x : Item W) : Prop :=
  ∃ name i l ps t, x = h.item name i l ps t ∧ h.IsParse name i l ps t

/-- Whether a schema consists of the axioms and rules of a weighing, and its goal is the start
symbol over the whole input. -/
structure Suits (schema : Schema W) : Prop where
  axioms_iff : ∀ x, (∃ a ∈ schema.axioms, x ∈ a.items) ↔ ∃ p ∈ g.productions, ∃ i l,
    Scans tokens p.production i l ∧ h.Covers p.production.lhs i l ∧
      x = h.item p.production.lhs i l [p] (.ofProduction p.production)
  rules_iff : ∀ rule, rule ∈ schema.rules ↔
    ∃ p ∈ g.productions, p.production.isBinary = true ∧ rule = .weighted (h.rule p)
  goals_iff : ∀ f, (∃ x ∈ schema.goals, x.form = f) ↔
    f = Cyk.form g.start 0 (h.mark 0 tokens.length)

variable {h} {name name' b c : String} {i i' j l l' m : ℕ} {ps ps' qs qs' : List (Production W)}
  {t t' u u' : Tree} {p : Production W} {x y z : Item W} {xs ys : List (Item W)} {f : Firing W}

/-- The spans that are considered include their parts. -/
lemma isDownward : IsDownward g tokens h.Covers := ⟨h.covers_zero, h.covers_parts⟩

lemma IsParse.subset (hp : h.IsParse name i l ps t) : ps ⊆ g.productions :=
  fun q hq => hp.parses.mem_productions q hq

lemma span_eq_of_form (hform : (h.item name i l ps t).form = (h.item name' i' l' ps' t').form) :
    name = name' ∧ i = i' ∧ l = l' := by
  obtain ⟨hname, rfl, hmark⟩ := Cyk.form_injective hform
  exact ⟨hname, rfl, h.mark_injective hmark⟩

lemma IsSound.isSpan (hx : h.IsSound x) : Cyk.IsSpan x := by
  obtain ⟨name, i, l, ps, t, rfl, -⟩ := hx
  exact ⟨name, i, _, rfl⟩

/-- A sound item with the form of a span is that of one of its parses. -/
lemma IsSound.of_form (hx : h.IsSound x) (hform : x.form = (h.item name i l ps t).form) :
    ∃ qs u, x = h.item name i l qs u ∧ h.IsParse name i l qs u := by
  obtain ⟨name', i', l', qs, u, rfl, hparse⟩ := hx
  obtain ⟨rfl, rfl, rfl⟩ := span_eq_of_form hform
  exact ⟨qs, u, rfl, hparse⟩

/-- If the item of a parse has the weight of another one or a preferred one, the parse is not
worse. -/
lemma value_le [OrderedWeight W] (hcovers : h.Covers name i l)
    (hweight : (h.item name i l qs u).weight = (h.item name i l ps t).weight ∨
      policy.prefers (h.item name i l qs u).weight (h.item name i l ps t).weight = true) :
    h.value ps ≤ h.value qs := by
  refine not_lt.1 fun hlt => ?_
  rcases hweight with heq | hprefers
  · have hprefers : policy.prefers (h.item name i l ps t).weight
        (h.item name i l qs u).weight = true := (h.prefers_iff _ _ hcovers).2 hlt
    rw [heq, Policy.prefers_irrefl] at hprefers
    cases hprefers
  · exact hlt.asymm ((h.prefers_iff _ _ hcovers).1 hprefers)

/-- Items of one span with one weight are those of equally good parses. -/
lemma value_eq [OrderedWeight W] (hcovers : h.Covers name i l)
    (hweight : (h.item name i l ps t).weight = (h.item name i l qs u).weight) :
    h.value ps = h.value qs :=
  (value_le hcovers (Or.inl hweight.symm)).antisymm (value_le hcovers (Or.inl hweight))

/-- What improves the item of a parse is the item of one that is not worse. -/
lemma IsSound.of_improves [OrderedWeight W] (hx : h.IsSound x)
    (himproves : policy.Improves (h.item name i l ps t) x) :
    ∃ qs u, x = h.item name i l qs u ∧ h.IsParse name i l qs u ∧ h.value ps ≤ h.value qs := by
  obtain ⟨qs, u, rfl, hparse⟩ := hx.of_form himproves.1
  refine ⟨qs, u, rfl, hparse, value_le hparse.covers (himproves.2.imp_left fun heq => ?_)⟩
  rw [heq]

/-! ### Two parts -/

section Grammar

variable (hg : g.unweighted.IsWellFormed) (hnormal : g.unweighted.isChomskyNormal = true)

include hg in
/-- The items of two parts are joined to that of both. -/
lemma join_item (hp : p ∈ g.productions)
    (hrhs : p.production.rhs = [.nonterminal b, .nonterminal c]) (hx : h.IsParse b i l ps t)
    (hy : h.IsParse c (i + l) m qs u) (hcovers : h.Covers p.production.lhs i (l + m)) :
    (h.rule p).join (h.item b i l ps t) (h.item c (i + l) m qs u) =
      some ⟨(h.rule p).name, [h.item p.production.lhs i (l + m) (p :: (ps ++ qs))
        (.above p.production.lhs [t, u])]⟩ := by
  refine (h.join_iff p hp hx.covers hy.covers hx.subset hy.subset).2 ⟨⟨rfl, ?_, hcovers⟩, ?_⟩
  · rw [Production.rhsNames, hrhs]
    rfl
  · rw [WeightedRule.fillings_eq hg (Grammar.mem_unweighted hp) hrhs hx.parses.spells
      hy.parses.spells]
    rfl

/-- Two parts in a row make a parse of both. -/
lemma IsParse.join (hp : p ∈ g.productions)
    (hrhs : p.production.rhs = [.nonterminal b, .nonterminal c]) (hx : h.IsParse b i l ps t)
    (hy : h.IsParse c (i + l) m qs u) (hcovers : h.Covers p.production.lhs i (l + m)) :
    h.IsParse p.production.lhs i (l + m) (p :: (ps ++ qs)) (.above p.production.lhs [t, u]) := by
  have hparses := Grammar.Parses.of_binary hp hrhs hx.parses hy.parses
  rw [span_append (Nat.le_add_right i l) (Nat.le_add_right (i + l) m), Nat.add_assoc] at hparses
  exact ⟨by have := hy.le_length; omega, hcovers, hparses⟩

include hg in
/-- Only the items of two parts in a row are joined. -/
lemma exists_of_join (hp : p ∈ g.productions) (hbinary : p.production.isBinary = true)
    (hx : h.IsSound x) (hy : h.IsSound y) (hjoin : (h.rule p).join x y = some f) :
    ∃ b c i l m ps qs t u, p.production.rhs = [.nonterminal b, .nonterminal c] ∧
      x = h.item b i l ps t ∧ y = h.item c (i + l) m qs u ∧ h.IsParse b i l ps t ∧
        h.IsParse c (i + l) m qs u ∧ h.Covers p.production.lhs i (l + m) ∧
          f = ⟨(h.rule p).name, [h.item p.production.lhs i (l + m) (p :: (ps ++ qs))
            (.above p.production.lhs [t, u])]⟩ := by
  obtain ⟨b, i, l, ps, t, rfl, hparse⟩ := hx
  obtain ⟨c, j, m, qs, u, rfl, hparse'⟩ := hy
  obtain ⟨⟨rfl, hnames, hcovers⟩, -⟩ := (h.join_iff p hp hparse.covers hparse'.covers
    hparse.subset hparse'.subset).1 hjoin
  obtain ⟨b', c', hrhs⟩ := Cyk.rhs_of_isBinary hbinary
  obtain ⟨rfl, rfl⟩ : b' = b ∧ c' = c := by
    simpa [Production.rhsNames, hrhs, Symbol.name] using hnames
  exact ⟨b', c', i, l, m, ps, qs, t, u, hrhs, rfl, rfl, hparse, hparse', hcovers,
    Option.some.inj (hjoin.symm.trans (join_item hg hp hrhs hparse hparse' hcovers))⟩

include hnormal in
/-- The two parts of a right-hand side are not the same. -/
lemma form_ne (hp : p ∈ g.productions)
    (hrhs : p.production.rhs = [.nonterminal b, .nonterminal c]) (hx : h.IsParse b i l ps t) :
    (h.item b i l ps t).form ≠ (h.item c (i + l) m qs u).form := by
  intro hform
  obtain ⟨-, hi, -⟩ := span_eq_of_form hform
  have hnil : span tokens i (i + l) = [] := by rw [← hi, span_self]
  exact hx.parses.ne_nil_of_mem_rhs hnormal hp (by simp [hrhs]) hnil

end Grammar

/-! ### Runs -/

variable {schema : Schema W} (hg : g.unweighted.IsWellFormed)
  (hnormal : g.unweighted.isChomskyNormal = true) (hsuits : h.Suits schema)

include hg hsuits in
/-- Axioms give sound items, and rules conclude such. -/
lemma produces_isSound : schema.Produces h.IsSound where
  of_axiom a ha x hx := by
    obtain ⟨p, hp, i, l, hscans, hcovers, rfl⟩ := (hsuits.axioms_iff x).1 ⟨a, ha, hx⟩
    obtain ⟨hle, hparses⟩ := hscans.parses hp
    exact ⟨_, i, l, _, _, rfl, hle, hcovers, hparses⟩
  of_fire rule hrule xs f hxs hf y hy := by
    obtain ⟨p, hp, hbinary, rfl⟩ := (hsuits.rules_iff rule).1 hrule
    obtain ⟨x, x', hperm, hjoin⟩ := WeightedRule.exists_of_fire? hf
    obtain ⟨b, c, i, l, m, ps, qs, t, u, hrhs, rfl, rfl, hparse, hparse', hcovers, rfl⟩ :=
      exists_of_join hg hp hbinary (hxs _ (hperm.symm.subset (by simp)))
        (hxs _ (hperm.symm.subset (by simp))) hjoin
    rw [List.mem_singleton.1 hy]
    exact ⟨_, i, l + m, _, _, rfl, hparse.join hp hrhs hparse' hcovers⟩

include hg hnormal hsuits in
/-- The rules do not conclude anything worse from better items. -/
lemma isMonotone [OrderedWeight W] {rule : Rule W} (hrule : rule ∈ schema.rules) :
    Deduction.IsMonotone policy h.IsSound rule := by
  obtain ⟨p, hp, hbinary, rfl⟩ := (hsuits.rules_iff rule).1 hrule
  refine ⟨fun xs ys f hxs hnodup hperm hf => WeightedRule.fire?_perm
    (fun x hx => (hxs x hx).isSpan) hperm hnodup hf, fun xs ys f hxs hys himproves hf => ?_⟩
  obtain ⟨x, x', hperm, hjoin⟩ := WeightedRule.exists_of_fire? hf
  obtain ⟨zs, hzs, hperm'⟩ := List.perm_comp_forall₂ hperm.symm himproves
  obtain ⟨b, c, i, l, m, ps, qs, t, u, hrhs, rfl, rfl, hparse, hparse', hcovers, rfl⟩ :=
    exists_of_join hg hp hbinary (hxs _ (hperm.symm.subset (by simp)))
      (hxs _ (hperm.symm.subset (by simp))) hjoin
  cases hzs with
  | @cons _ y _ _ hy hzs =>
    cases hzs with
    | @cons _ y' _ _ hy' hzs =>
      cases hzs
      have hsound : h.IsSound y := hys _ (hperm'.subset (by simp))
      have hsound' : h.IsSound y' := hys _ (hperm'.subset (by simp))
      obtain ⟨ps', t', rfl, hbetter, hvalue⟩ := hsound.of_improves hy
      obtain ⟨qs', u', rfl, hbetter', hvalue'⟩ := hsound'.of_improves hy'
      have hfire := WeightedRule.fire?_of_join (join_item hg hp hrhs hbetter hbetter' hcovers)
      have hfire' := WeightedRule.fire?_perm (by simp [hsound.isSpan, hsound'.isSpan])
        hperm'.symm (by simpa using form_ne hnormal hp hrhs hbetter) hfire
      refine ⟨_, hfire', rfl, fun z hz => ⟨_, List.mem_singleton_self _, ?_⟩⟩
      rw [List.mem_singleton.1 hz]
      refine ⟨rfl, ?_⟩
      rcases (h.value_mono p hp hparse.subset hbetter.subset hparse'.subset hbetter'.subset hvalue
        hvalue').eq_or_lt with heq | hlt
      · exact Or.inl (by rw [item, item, heq])
      · exact Or.inr ((h.prefers_iff _ _ hcovers).2 hlt)

/-! ### The end of a run -/

section Run

variable [OrderedWeight W] (hpolicy : policy ≠ .accumulate)
  (hnodup : g.unweighted.productions.Nodup) {limit : Option ℕ} {fuel : ℕ} {s : Deduction.State W}
  (hrun : Deduction.finalState ⟨policy, limit⟩ schema fuel = .ok s)

include hg hsuits hpolicy hrun in
lemma isSound_of_mem_items (hx : x ∈ s.chart.items) : h.IsSound x := by
  obtain ⟨i, hi⟩ := hx
  obtain ⟨e, he, rfl⟩ := Chart.item?_eq_some_iff.1 hi
  exact (Deduction.isSupported_of_finalState hpolicy (produces_isSound hg hsuits) hrun i e he).1

include hg hsuits hpolicy hnodup hrun in
/-- What an axiom is about is in the chart, or something better. -/
lemma exists_item_of_scans (hp : p ∈ g.productions) (hscans : Scans tokens p.production i l)
    (hcovers : h.Covers p.production.lhs i l) :
    ∃ qs u, h.item p.production.lhs i l qs u ∈ s.chart.items ∧
      h.IsParse p.production.lhs i l qs u ∧ h.value [p] ≤ h.value qs := by
  obtain ⟨a, ha, hx⟩ := (hsuits.axioms_iff _).2 ⟨p, hp, i, l, hscans, hcovers, rfl⟩
  obtain ⟨y, hy, himproves⟩ := Deduction.exists_improved_of_mem_axioms hpolicy hrun ha hx
    fun b hb y hy hform => by
      -- another axiom for the span would have the same production
      obtain ⟨q, hq, i', l', hscans', -, rfl⟩ := (hsuits.axioms_iff y).1 ⟨b, hb, hy⟩
      obtain ⟨hlhs, rfl, rfl⟩ := span_eq_of_form hform
      rw [List.inj_on_of_nodup_map hnodup hq hp (hscans'.eq_of_lhs hscans hlhs)]
  obtain ⟨qs, u, rfl, hparse, hle⟩ :=
    (isSound_of_mem_items hg hsuits hpolicy hrun hy).of_improves himproves
  exact ⟨qs, u, hy, hparse, hle⟩

include hg hnormal hsuits hpolicy hrun in
/-- What is joined from two parts is in the chart, or something better. -/
lemma exists_item_of_parts (hp : p ∈ g.productions)
    (hrhs : p.production.rhs = [.nonterminal b, .nonterminal c])
    (hx : h.item b i l ps t ∈ s.chart.items) (hy : h.item c (i + l) m qs u ∈ s.chart.items)
    (hparse : h.IsParse b i l ps t) (hparse' : h.IsParse c (i + l) m qs u)
    (hcovers : h.Covers p.production.lhs i (l + m)) :
    ∃ rs v, h.item p.production.lhs i (l + m) rs v ∈ s.chart.items ∧
      h.IsParse p.production.lhs i (l + m) rs v ∧ h.value (p :: (ps ++ qs)) ≤ h.value rs := by
  have hbinary : p.production.isBinary = true := by
    simp [Production.isBinary, hrhs, Symbol.isNonterminal]
  have hspan := (isSound_of_mem_items hg hsuits hpolicy hrun hx).isSpan
  have hspan' := (isSound_of_mem_items hg hsuits hpolicy hrun hy).isSpan
  obtain ⟨z, hz, hform, hworse⟩ := WeightedRule.kept_of_join (Deduction.settling hpolicy) hrun
    ((hsuits.rules_iff _).2 ⟨p, hp, hbinary, rfl⟩) hx hy hspan hspan'
      (form_ne hnormal hp hrhs hparse) (join_item hg hp hrhs hparse hparse' hcovers)
        (List.mem_singleton_self _)
  obtain ⟨rs, v, rfl, hparse''⟩ :=
    (isSound_of_mem_items hg hsuits hpolicy hrun hz).of_form hform
  refine ⟨rs, v, hz, hparse'', not_lt.1 fun hlt => ?_⟩
  have hprefers := (h.prefers_iff _ _ hcovers).2 hlt
  exact absurd hprefers (by simpa [item] using hworse)

include hg hnormal hsuits hpolicy hnodup hrun in
/-- At the end of a run, no parse of a span that is considered is better than what the chart has for
the span. -/
theorem exists_item (hparses : g.Parses [.nonterminal name] [t] (span tokens i (i + l)) ps)
    (hle : i + l ≤ tokens.length) (hcovers : h.Covers name i l) :
    ∃ qs u, h.item name i l qs u ∈ s.chart.items ∧ h.IsParse name i l qs u ∧
      h.value ps ≤ h.value qs := by
  refine h.isDownward.induction hnormal (motive := fun name i l ps =>
    ∃ qs u, h.item name i l qs u ∈ s.chart.items ∧ h.IsParse name i l qs u ∧
      h.value ps ≤ h.value qs) ?scans ?parts hparses hle hcovers
  case scans =>
    intro p hp i l hscans hcovers
    exact exists_item_of_scans hg hsuits hpolicy hnodup hrun hp hscans hcovers
  case parts =>
    rintro p hp b c i l m qs rs hrhs - hqs hrs hcovers - - ⟨qs', t, hmem, hparse, hvalue⟩
      ⟨rs', u, hmem', hparse', hvalue'⟩
    obtain ⟨ps', t', hitem, hparse'', hbest⟩ := exists_item_of_parts hg hnormal hsuits hpolicy hrun
      hp hrhs hmem hmem' hparse hparse' hcovers
    refine ⟨ps', t', hitem, hparse'', le_trans ?_ hbest⟩
    exact h.value_mono p hp hqs hparse.subset hrs hparse'.subset hvalue hvalue'

include hg hnormal hsuits hpolicy hnodup hrun in
/-- At the end of a run, the chart has the spans that are considered and have a parse. -/
theorem form_mem_iff {k : ℕ} : Cyk.form name i k ∈ s.chart.forms ↔
    ∃ l, h.mark i l = k ∧ i + l ≤ tokens.length ∧ h.Covers name i l ∧
      (g.valuesOf h.value name (span tokens i (i + l))).Nonempty := by
  constructor
  · intro hform
    obtain ⟨x, hx, hxform⟩ := Chart.mem_forms_iff.1 hform
    obtain ⟨name', i', l, ps, t, rfl, hparse⟩ := isSound_of_mem_items hg hsuits hpolicy hrun hx
    obtain ⟨rfl, rfl, rfl⟩ := Cyk.form_injective hxform
    exact ⟨l, rfl, hparse.le_length, hparse.covers, _, t, ps, hparse.parses, rfl⟩
  · rintro ⟨l, rfl, hle, hcovers, _, t, ps, hparses, -⟩
    obtain ⟨qs, u, hmem, -⟩ := exists_item hg hnormal hsuits hpolicy hnodup hrun hparses hle hcovers
    exact Chart.mem_forms_iff.2 ⟨_, hmem, rfl⟩

include hg hnormal hsuits hpolicy hnodup hrun in
/-- At the end of a run, every entry is that of a parse, and no parse of the span is better. It has
one derivation, which gives the weight from the antecedents as they are at the end. -/
theorem entry_exact {position : ℕ} {e : Entry W} (he : s.chart.entries[position]? = some e) :
    ∃ name i l ps t d, e = ⟨h.item name i l ps t, [d]⟩ ∧ h.IsParse name i l ps t ∧
      IsGreatest (g.valuesOf h.value name (span tokens i (i + l))) (h.value ps) ∧
        Deduction.Reproduces schema s.chart e d := by
  have hmem : e.item ∈ s.chart.items := ⟨position, Chart.item?_eq_some_iff.2 ⟨e, he, rfl⟩⟩
  obtain ⟨d, hd, hreproduces⟩ := Deduction.reproduces_of_finalState hpolicy
    (produces_isSound hg hsuits) (fun rule => isMonotone hg hnormal hsuits) hrun he
  obtain ⟨name, i, l, ps, t, heq, hparse⟩ := isSound_of_mem_items hg hsuits hpolicy hrun hmem
  obtain ⟨x, ds⟩ := e
  obtain rfl : x = h.item name i l ps t := heq
  obtain rfl : ds = [d] := hd
  refine ⟨name, i, l, ps, t, d, rfl, hparse, ⟨⟨t, ps, hparse.parses, rfl⟩, ?_⟩, hreproduces⟩
  rintro _ ⟨u, qs, hparses, rfl⟩
  obtain ⟨rs, v, hitem, -, hle⟩ := exists_item hg hnormal hsuits hpolicy hnodup hrun hparses
    hparse.le_length hparse.covers
  have hsame := (Deduction.consistent_of_finalState hrun).1.indexed.eq_of_items hitem hmem rfl
  exact hle.trans (value_eq hparse.covers (congrArg Item.weight hsame)).le

include hg hnormal hsuits hpolicy hnodup hrun in
/-- Something is derivable if the whole input is considered and has a parse. -/
theorem isDerivable_iff : (Outcome.ofChart schema.goals s.chart).isDerivable = true ↔
    h.Covers g.start 0 tokens.length ∧ (g.valuesOf h.value g.start tokens).Nonempty := by
  rw [Deduction.isDerivable_ofChart_iff (Deduction.consistent_of_finalState hrun).1.indexed]
  have hgoal : (∃ x ∈ schema.goals, x.form ∈ s.chart.forms) ↔
      Cyk.form g.start 0 (h.mark 0 tokens.length) ∈ s.chart.forms := by
    constructor
    · rintro ⟨x, hx, hform⟩
      rwa [(hsuits.goals_iff x.form).1 ⟨x, hx, rfl⟩] at hform
    · intro hform
      obtain ⟨x, hx, hxform⟩ := (hsuits.goals_iff _).2 rfl
      exact ⟨x, hx, hxform ▸ hform⟩
  rw [hgoal, form_mem_iff hg hnormal hsuits hpolicy hnodup hrun]
  constructor
  · rintro ⟨l, hl, -, hcovers, hparses⟩
    obtain rfl := h.mark_injective hl
    rw [Nat.zero_add, span_length] at hparses
    exact ⟨hcovers, hparses⟩
  · rintro ⟨hcovers, hparses⟩
    refine ⟨_, rfl, (Nat.zero_add _).le, hcovers, ?_⟩
    rwa [Nat.zero_add, span_length]

include hg hnormal hsuits hpolicy hnodup hrun in
/-- The goals are best parses of the whole input. -/
theorem goal_exact {position : ℕ}
    (hgoal : position ∈ (Outcome.ofChart schema.goals s.chart).goals) :
    ∃ ps t, s.chart.item? position = some (h.item g.start 0 tokens.length ps t) ∧
      g.Parses [.nonterminal g.start] [t] tokens ps ∧
        IsGreatest (g.valuesOf h.value g.start tokens) (h.value ps) := by
  obtain ⟨x, hx, hform⟩ := (Deduction.mem_goals_ofChart
    (Deduction.consistent_of_finalState hrun).1.indexed).1 hgoal
  have hform := (hsuits.goals_iff _).1 hform
  obtain ⟨e, he, rfl⟩ := Chart.item?_eq_some_iff.1 hx
  obtain ⟨name, i, l, ps, t, d, rfl, hparse, hgreatest, -⟩ :=
    entry_exact hg hnormal hsuits hpolicy hnodup hrun he
  obtain ⟨rfl, rfl, hl⟩ := Cyk.form_injective hform
  obtain rfl := h.mark_injective hl
  have hparses := hparse.parses
  rw [Nat.zero_add, span_length] at hparses hgreatest
  exact ⟨ps, t, hx, hparses, hgreatest⟩

end Run

end Weighing

end DeductiveParsing.Weighted
