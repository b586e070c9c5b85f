/-
The trees that parsing by spans finds for all grammars without empty productions and cycles.

* `Cyk.IsSound`, `Cyk.preserves_isSound`: the trees of a span spell the tokens that it covers;
* `Cyk.Chained.eq_of_perm`: spans follow one another in one order only;
* `Cyk.exists_item_of_chained`: a span is found over spans that follow one another, with all trees;
* `Cyk.mem_trees_iff`: the trees of an outcome are exactly the parse trees.
-/
import DeductiveParsing.Proofs.Cyk.Forests
import DeductiveParsing.Proofs.Deduction.Closure

namespace DeductiveParsing.Cyk

open ContextFree Grammar

variable {W : Type} {g : Grammar} {tokens : List String} {p : Production} {x y : Item W}
  {xs ys : List (Item W)} {schema : Schema W} {t : Tree} {cs : List Tree} {name : String}
  {symbols : List Symbol} {i l place start stop : ℕ}

/-! ### What items carry -/

/-- What items carry: trees that spell the tokens that the item covers. Only the empty string covers
none, and an undeclared name only itself. -/
def IsSound (g : Grammar) (tokens : List String) (x : Item W) : Prop :=
  ∃ name i l, x.form = form name i l ∧ i + l ≤ tokens.length ∧
    (name ≠ epsilon → 1 ≤ l ∧ (name ∉ g.nonterminals → l = 1 ∧ tokens[i]? = some name)) ∧
      ∀ t ∈ x.trees, g.Spells [.nonterminal name] [t] (span tokens i (i + l))

/-- What is known of an item whose form is known. -/
lemma IsSound.of_form (h : IsSound g tokens x) (hx : x.form = form name i l) :
    i + l ≤ tokens.length ∧
      (name ≠ epsilon → 1 ≤ l ∧ (name ∉ g.nonterminals → l = 1 ∧ tokens[i]? = some name)) ∧
        ∀ t ∈ x.trees, g.Spells [.nonterminal name] [t] (span tokens i (i + l)) := by
  obtain ⟨name', i', l', hform, h⟩ := h
  obtain ⟨rfl, rfl, rfl⟩ := form_injective (hform.symm.trans hx)
  exact h

lemma IsSound.isSpan (h : IsSound g tokens x) : IsSpan x := by
  obtain ⟨name, i, l, hform, -⟩ := h
  exact ⟨name, i, l, hform⟩

lemma IsSound.carriesTrees (h : IsSound g tokens x) : CarriesTrees g x :=
  fun _ _ _ hform t ht => ⟨_, (h.of_form hform).2.2 t ht⟩

lemma IsMark.isSound (h : IsMark tokens x) : IsSound g tokens x := by
  cases h with
  | @token a i htoken =>
      exact ⟨a, i, 1, rfl, (List.getElem?_eq_some_iff.1 htoken).1,
        fun _ => ⟨le_rfl, fun _ => ⟨rfl, htoken⟩⟩, nofun⟩
  | @empty i hi => exact ⟨epsilon, i, 0, rfl, hi, fun hne => absurd rfl hne, nofun⟩

/-- Spans for declared symbols cover a token at least, and their trees spell what they cover. -/
lemma Chained.spells (h : Chained place xs symbols stop) (hs : g.Declares symbols)
    (hxs : ∀ x ∈ xs, IsSound g tokens x) (hcs : Picked xs symbols cs) :
    g.Spells symbols cs (span tokens place stop) := by
  induction h generalizing cs with
  | nil =>
      cases hcs
      rw [span_self]
      exact .nil
  | @cons place l stop x s xs symbols hx h ih =>
      obtain ⟨-, hname, htrees⟩ := (hxs x List.mem_cons_self).of_form hx
      have hrest : ∀ cs, Picked xs symbols cs →
          g.Spells symbols cs (span tokens (place + l) stop) :=
        fun cs => ih hs.tail fun y hy => hxs y (List.mem_cons_of_mem _ hy)
      rw [← span_append (Nat.le_add_right place l) h.le]
      cases hcs with
      | leaf _ a hcs =>
          obtain ⟨rfl, htoken⟩ := (hname (hs _ List.mem_cons_self).1.1).2
            (hs.not_mem List.mem_cons_self)
          rw [span_succ htoken]
          exact .leaf a (hrest _ hcs)
      | tree a hu hcs => exact (htrees _ hu).append (hrest _ hcs)

lemma Chained.lt (h : Chained place xs symbols stop) (hsymbols : symbols ≠ [])
    (hs : g.Declares symbols) (hxs : ∀ x ∈ xs, IsSound g tokens x) : place < stop := by
  cases h with
  | nil => exact absurd rfl hsymbols
  | cons hx h =>
      have hpos := (((hxs _ List.mem_cons_self).of_form hx).2.1 (hs _ List.mem_cons_self).1.1).1
      have := h.le
      omega

/-- What rules conclude spells what it covers. -/
lemma IsSound.concludes (hg : g.IsWellFormed) (hlhs : ∀ p ∈ g.productions, p.lhs ∈ g.nonterminals)
    (hempty : g.hasEmptyProduction = false) (hp : p ∈ g.productions)
    (hxs : ∀ x ∈ xs, IsSound g tokens x) (h : Concludes p xs y) : IsSound g tokens y := by
  cases h with
  | @spans order start stop hne hperm hchain =>
      have horder : ∀ x ∈ order, IsSound g tokens x := fun x hx => hxs x (hperm.subset hx)
      have hlt := hchain.lt hne (hg.declares hp) horder
      have hstop := hchain.stop_le hne fun x hx name i l hform => ((horder x hx).of_form hform).1
      refine ⟨p.lhs, start, stop - start, rfl, by omega,
        fun _ => ⟨by omega, fun hnot => absurd (hlhs p hp) hnot⟩, fun t ht => ?_⟩
      obtain ⟨cs, hcs, rfl⟩ := (mem_fill_ofProduction_iff hg hp hchain
        fun x hx => (horder x hx).carriesTrees).1 ht
      rw [Nat.add_sub_of_le hlt.le]
      exact .singleton_node hp (hchain.spells (hg.declares hp) horder hcs)
  | empty hrhs => exact absurd hrhs (rhs_ne_nil hempty hp)

lemma IsSound.merge (hx : IsSound g tokens x) (hy : IsSound g tokens y) (h : x.form = y.form) :
    IsSound g tokens { x with trees := Forest.merge x.trees y.trees } := by
  obtain ⟨name, i, l, hform, hle, hname, htrees⟩ := hx
  have htrees' := (hy.of_form (h.symm.trans hform)).2.2
  exact ⟨name, i, l, hform, hle, hname,
    fun t ht => (Forest.mem_merge ht).elim (htrees t) (htrees' t)⟩

/-! ### Orders of spans -/

/-- Whether one span begins before another one. -/
def Precedes (x y : Item W) : Prop := ∃ i j, x.index? 1 = some i ∧ y.index? 1 = some j ∧ i < j

lemma Precedes.asymm (h : Precedes x y) : ¬Precedes y x := by
  obtain ⟨i, j, hi, hj, hlt⟩ := h
  rintro ⟨j', i', hj', hi', hlt'⟩
  obtain rfl : i = i' := Option.some.inj (hi.symm.trans hi')
  obtain rfl : j = j' := Option.some.inj (hj.symm.trans hj')
  omega

lemma Precedes.form_ne (h : Precedes x y) : x.form ≠ y.form := by
  obtain ⟨i, j, hi, hj, hlt⟩ := h
  intro hform
  rw [Item.index?_congr hform, hj] at hi
  exact hlt.ne (Option.some.inj hi).symm

/-- Spans for declared symbols, which cover a token at least, begin one behind the other. -/
lemma Chained.pairwise_precedes (h : Chained place xs symbols stop) (hs : g.Declares symbols)
    (hxs : ∀ x ∈ xs, IsSound g tokens x) : xs.Pairwise Precedes := by
  induction h with
  | nil => exact .nil
  | @cons place l stop x s xs symbols hx h ih =>
      have hpos := (((hxs _ List.mem_cons_self).of_form hx).2.1 (hs _ List.mem_cons_self).1.1).1
      refine List.pairwise_cons.2 ⟨fun y hy => ?_,
        ih hs.tail fun y hy => hxs y (List.mem_cons_of_mem _ hy)⟩
      obtain ⟨i, hi, hle⟩ := (CykRule.chainEnd?_eq_some h.length_eq h.chainEnd?_eq).2 y hy
      exact ⟨place, i, (fields_of_form hx).2.1, hi, by omega⟩

/-- Spans follow one another in one order only. -/
lemma Chained.eq_of_perm (h : Chained place xs symbols stop) (h' : Chained start ys symbols l)
    (hs : g.Declares symbols) (hxs : ∀ x ∈ xs, IsSound g tokens x) (hperm : ys.Perm xs) :
    ys = xs := by
  have hys : ∀ y ∈ ys, IsSound g tokens y := fun y hy => hxs y (hperm.subset hy)
  refine hperm.eq_of_pairwise (fun x y _ _ hxy hyx => absurd hyx hxy.asymm)
    (h'.pairwise_precedes hs hys) (h.pairwise_precedes hs hxs)

/-- In whatever order spans that follow one another are given, they are joined in that. -/
lemma exists_fire_general (hg : g.IsWellFormed) (hp : p ∈ g.productions) (hne : p.rhs ≠ [])
    (hxs : ∀ x ∈ xs, IsSound g tokens x) (h : Chained start xs p.rhs stop) (hperm : ys.Perm xs) :
    ∃ f, (CykRule.general p).fire ys = some f ∧ CykRule.item p.lhs start (stop - start)
      (Forest.fill (Tree.ofProduction p) (CykRule.nonterminalForests xs p.rhs)) ∈ f.items := by
  have hempty : p.isEmpty = false := by simpa [Production.isEmpty] using hne
  have hjoin := h.joinAll_eq hne
  have hwalk : xs ∈ CykRule.spanOrders p ys :=
    Choice.mem_walks_length.2 ⟨hperm.symm, CykRule.isSome_walk_of_joinAll h.length_eq hjoin⟩
  obtain ⟨y, hy, hyform⟩ : ∃ y ∈ Item.distinctForms
      ((CykRule.spanOrders p ys).filterMap (CykRule.joinAll p)), y.form = (CykRule.item p.lhs start
        (stop - start) (Forest.fill (Tree.ofProduction p)
          (CykRule.nonterminalForests xs p.rhs))).form :=
    Choice.exists_mem_distinctBy (List.mem_filterMap.2 ⟨xs, hwalk, hjoin⟩)
  -- what is kept for the form has been joined in the same order
  obtain ⟨order, horder, hy'⟩ := List.mem_filterMap.1 (Choice.mem_of_mem_distinctBy hy)
  have hperm' := (Choice.mem_walks_length.1 horder).1.trans hperm
  obtain ⟨start', stop', h', -⟩ := joinAll_eq_some (fun x hx => h.isSpan x (hperm'.subset hx))
    (hperm'.length_eq.trans h.length_eq) hy'
  obtain rfl := h.eq_of_perm h' (hg.declares hp) hxs hperm'
  obtain rfl := Option.some.inj (hjoin.symm.trans hy')
  refine ⟨⟨CykRule.name (.general p),
    Item.distinctForms ((CykRule.spanOrders p ys).filterMap (CykRule.joinAll p))⟩, ?_, hy⟩
  simp only [CykRule.fire, hempty, Bool.false_eq_true, ↓reduceIte, Firing.ofItems]
  exact if_neg (by simpa using List.ne_nil_of_mem hy)

/-! ### All trees -/

variable [Weight W] (hg : g.IsWellFormed) (hlhs : ∀ p ∈ g.productions, p.lhs ∈ g.nonterminals)
  (hempty : g.hasEmptyProduction = false) (hschema : Schema.cykGeneral g tokens = .ok schema)
include hg hlhs hempty hschema

lemma preserves_isSound : schema.Preserves (IsSound g tokens) where
  of_axiom a ha x hx := ((mem_axioms_cykGeneral hschema).1 ⟨a, ha, hx⟩).isSound
  of_fire rule hrule xs f hxs hf y hy := by
    obtain ⟨p, hp, hconcludes⟩ := (isSpanSchema_cykGeneral hschema).concludes hrule
      (fun x hx => (hxs x hx).isSpan) hf hy
    exact IsSound.concludes hg hlhs hempty hp hxs hconcludes
  of_merge _ _ hx hy h := hx.merge hy h

section Complete

variable (hacyclic : g.IsAcyclic) {settings : Settings} (hpolicy : settings.policy = .accumulate)
  {fuel : ℕ} {s : Deduction.State W} (hs : Deduction.finalState settings schema fuel = .ok s)
include hacyclic hpolicy hs

/-- A span is found over spans that follow one another, with all trees that are picked for them. -/
lemma exists_item_of_chained (hp : p ∈ g.productions) (h : Chained start xs p.rhs stop)
    (hxs : ∀ x ∈ xs, x ∈ s.chart.items) (hcs : Picked xs p.rhs cs) :
    ∃ z ∈ s.chart.items, z.form = form p.lhs start (stop - start) ∧ .above p.lhs cs ∈ z.trees := by
  have hne := rhs_ne_nil hempty hp
  have hall := Deduction.holds_of_finalState (preserves_isSound hg hlhs hempty hschema) hs
  have hsound : ∀ x ∈ xs, IsSound g tokens x := fun x hx => hall x (hxs x hx)
  have hrule : Rule.cyk (.general p) ∈ schema.rules := by
    obtain rfl := Except.ok.inj hschema
    exact List.mem_map_of_mem hp
  have harity : (Rule.cyk (W := W) (.general p)).arity = p.rhs.length :=
    Nat.max_eq_left (List.length_pos_iff.2 hne)
  have hnodup : (xs.map Item.form).Nodup :=
    List.pairwise_map.2 ((h.pairwise_precedes (hg.declares hp) hsound).imp Precedes.form_ne)
  obtain ⟨ys, hys, hkeeps⟩ := Deduction.keeps_of_finalState hpolicy hs hrule
    (h.length_eq.trans harity.symm) hxs hnodup
  obtain ⟨f, hf, hmem⟩ := exists_fire_general hg hp hne hsound h hys
  have hfire := Rule.fire?_eq_some.2 ⟨(hys.length_eq.trans h.length_eq).trans harity.symm, hf⟩
  obtain ⟨z, hz, hzform, hkeeps⟩ := hkeeps f hfire _ hmem
  refine ⟨z, hz, hzform, ?_⟩
  -- without cycles no tree of the form occurs in another one
  have htree := (mem_fill_ofProduction_iff hg hp h fun x hx => (hsound x hx).carriesTrees).2
    ⟨cs, hcs, rfl⟩
  refine Forest.mem_of_excludes (hkeeps _ htree) fun u hu => ?_
  have hspells := h.spells (hg.declares hp) hsound hcs
  have hz' := ((hall z hz).of_form hzform).2.2 u hu
  rw [Nat.add_sub_of_le h.le] at hz'
  exact hacyclic.not_hasProperSubtree hg (.singleton_node hp hspells) hz' le_rfl

/-- Trees that spell the tokens behind a place are picked for spans that follow one another from
there. -/
lemma exists_chained_of_spells {ts : List Tree} {w : List String} (h : g.Spells symbols ts w)
    {before rest : List String} (htokens : tokens = before ++ w ++ rest) :
    ∃ xs : List (Item W), (∀ x ∈ xs, x ∈ s.chart.items) ∧
      Chained before.length xs symbols (before ++ w).length ∧ Picked xs symbols ts := by
  induction h generalizing before rest with
  | nil => exact ⟨[], nofun, by rw [List.append_nil]; exact .nil _, .nil⟩
  | @leaf a symbols ts w _ ih =>
      have htoken : tokens[before.length]? = some a := by simp [htokens]
      obtain ⟨b, hb, hx⟩ := (mem_axioms_cykGeneral hschema).2 (.token htoken)
      obtain ⟨x, hx, hform⟩ := Chart.mem_forms_iff.1 (Deduction.mem_forms_of_mem_axioms hs hb hx)
      have htokens' : tokens = (before ++ [a]) ++ w ++ rest := by simpa using htokens
      obtain ⟨xs, hxs, hchain, hpicked⟩ := ih htokens'
      refine ⟨x :: xs, List.forall_mem_cons.2 ⟨hx, hxs⟩, .cons hform ?_, .leaf x a hpicked⟩
      simpa using hchain
  | @node p symbols cs ts u w hp _ _ ihcs ihts =>
      have htokens₁ : tokens = before ++ u ++ (w ++ rest) := by simpa using htokens
      have htokens₂ : tokens = (before ++ u) ++ w ++ rest := by simpa using htokens
      obtain ⟨xs, hxs, hchain, hpicked⟩ := ihcs htokens₁
      obtain ⟨ys, hys, hchain', hpicked'⟩ := ihts htokens₂
      obtain ⟨z, hz, hform, hmem⟩ := exists_item_of_chained hg hlhs hempty hschema hacyclic hpolicy
        hs hp hchain hxs hpicked
      have hlength : (before ++ u).length - before.length = u.length := by simp
      rw [hlength] at hform
      refine ⟨z :: ys, List.forall_mem_cons.2 ⟨hz, hys⟩, .cons hform ?_, .tree _ hmem hpicked'⟩
      simpa [Nat.add_assoc] using hchain'

end Complete

/-- Without empty productions and cycles, the trees of an outcome are exactly the parse trees. -/
theorem mem_trees_iff (hacyclic : g.IsAcyclic) {settings : Settings}
    (hpolicy : settings.policy = .accumulate) {fuel : ℕ} {o : Outcome W}
    (h : Deduction.run settings schema fuel = .ok o) :
    t ∈ o.trees ↔ g.IsParseTree tokens t := by
  obtain ⟨s, hs, rfl⟩ := Deduction.run_eq_ok h
  have hgoals := (isSpanSchema_cykGeneral hschema).goals
  rw [isParseTree_iff hg, Deduction.mem_trees_ofChart
    (Deduction.consistent_of_finalState hs).1.indexed]
  constructor
  · rintro ⟨x, hx, ⟨y, hy, hform⟩, ht⟩
    have hall := Deduction.holds_of_finalState (preserves_isSound hg hlhs hempty hschema) hs x hx
    have hspells := (hall.of_form (hform.symm.trans (hgoals y hy))).2.2 t ht
    rwa [Nat.zero_add, span_length] at hspells
  · intro ht
    have htokens : tokens = [] ++ tokens ++ [] := by simp
    obtain ⟨xs, hxs, hchain, hpicked⟩ := exists_chained_of_spells hg hlhs hempty hschema hacyclic
      hpolicy hs ht htokens
    obtain ⟨x, rfl⟩ : ∃ x, xs = [x] := List.length_eq_one_iff.1 hchain.length_eq
    have hx := hxs x List.mem_cons_self
    have hform := hchain.form_of_singleton
    cases hpicked with
    | tree _ hmem _ =>
        refine ⟨x, hx, ?_, hmem⟩
        obtain rfl := Except.ok.inj hschema
        exact ⟨_, List.mem_cons_self, hform.symm⟩

end DeductiveParsing.Cyk
