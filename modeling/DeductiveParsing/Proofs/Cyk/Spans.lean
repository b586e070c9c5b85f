/-
Spans that follow one another, and what closed sets of forms conclude from them.

* `Cyk.Chained.nodup_forms`: two of them have one form only if a name stands twice over the empty
  string at one place;
* `Cyk.exists_fire_of_chained`: rules fire on them;
* `Cyk.mem_of_chained`: so a closed set of forms contains that of the left-hand side.
-/
import DeductiveParsing.Proofs.Cyk.Schemas
import DeductiveParsing.Proofs.Deduction.Closure

namespace DeductiveParsing.Cyk

open ContextFree Grammar

variable {W : Type} {xs : List (Item W)} {symbols : List Symbol} {p : Production}
  {rule : CykRule} {place start stop : ℕ}

/-- Each of the spans carries the name of a symbol and begins at the first place or behind it. -/
lemma Chained.exists_form (h : Chained place xs symbols stop) :
    ∀ x ∈ xs, ∃ s ∈ symbols, ∃ i l, x.form = form s.name i l ∧ place ≤ i := by
  induction h with
  | nil => simp
  | @cons place l stop x s xs symbols hx _ ih =>
      refine List.forall_mem_cons.2 ⟨⟨s, List.mem_cons_self, place, l, hx, le_rfl⟩, fun y hy => ?_⟩
      obtain ⟨s', hs', i, m, hform, hle⟩ := ih y hy
      exact ⟨s', List.mem_cons_of_mem _ hs', i, m, hform, by omega⟩

/-- Spans that follow one another have different forms, if no name of a span over the empty string
is that of two symbols. -/
lemma Chained.nodup_forms (h : Chained place xs symbols stop)
    (hempty : ∀ x ∈ xs, ∀ name i, x.form = form name i 0 →
      (symbols.map Symbol.name).count name ≤ 1) : (xs.map Item.form).Nodup := by
  induction h with
  | nil => exact List.nodup_nil
  | @cons place l stop x s xs symbols hx h ih =>
      have hrest : (xs.map Item.form).Nodup := by
        refine ih fun y hy name i hform => ?_
        have hle := hempty y (List.mem_cons_of_mem _ hy) name i hform
        rw [List.map_cons] at hle
        exact List.count_le_count_cons.trans hle
      refine List.nodup_cons.2 ⟨fun hmem => ?_, hrest⟩
      -- a span of the same form begins at the same place, so both are empty
      obtain ⟨y, hy, hyx⟩ := List.mem_map.1 hmem
      obtain ⟨s', hs', i, m, hform, hle⟩ := h.exists_form y hy
      obtain ⟨hname, rfl, rfl⟩ := form_injective (hform.symm.trans (hyx.trans hx))
      obtain rfl : m = 0 := by omega
      have htwice := hempty x List.mem_cons_self s.name i hx
      have hpos : 0 < (symbols.map Symbol.name).count s.name :=
        List.count_pos_iff.2 (hname ▸ List.mem_map_of_mem hs')
      rw [List.map_cons, List.count_cons_self] at htwice
      omega

/-- Spans that cover a token each end behind the place where they begin. -/
lemma Chained.lt_of_pos (h : Chained place xs symbols stop) (hne : symbols ≠ [])
    (hpos : ∀ x ∈ xs, ∀ name i l, x.form = form name i l → 1 ≤ l) : place < stop := by
  cases h with
  | nil => exact absurd rfl hne
  | cons hx h =>
      have hle := h.le
      have := hpos _ List.mem_cons_self _ _ _ hx
      omega

/-! ### Rules fire -/

lemma exists_fire_binary (hp : p.isBinary = true) (h : Chained start xs p.rhs stop) :
    ∃ f, (CykRule.binary p).fire xs = some f ∧
      form p.lhs start (stop - start) ∈ f.items.map Item.form := by
  obtain ⟨b, c, hrhs⟩ := rhs_of_isBinary hp
  rw [hrhs] at h
  cases h with
  | @cons _ l _ x _ _ _ hx h =>
      cases h with
      | @cons _ m _ y _ _ _ hy h =>
          cases h
          obtain ⟨hb, hi, hl⟩ := fields_of_form hx
          obtain ⟨hc, hj, hm⟩ := fields_of_form hy
          have hnames : p.rhsNames = [b, c] := by simp [Production.rhsNames, hrhs, Symbol.name]
          have hjoin : CykRule.joinTwo p x y = some ⟨CykRule.name (.binary p),
              [CykRule.item p.lhs start (l + m)
                (Forest.fill (Tree.ofProduction p) [x.trees, y.trees])]⟩ := by
            simp [CykRule.joinTwo, hb, hi, hl, hc, hj, hm, hnames, Symbol.name, Firing.one]
          have hfire : (CykRule.binary p).fire [x, y] = CykRule.joinTwo p x y := by
            simp only [CykRule.fire, Firing.eitherOrder?, hjoin]
          rw [Nat.add_assoc, Nat.add_sub_cancel_left]
          exact ⟨_, hfire.trans hjoin, List.mem_singleton_self _⟩

lemma exists_fire_unary (hp : p.isUnary = true) (h : Chained start xs p.rhs stop) :
    ∃ f, (CykRule.unary p).fire xs = some f ∧
      form p.lhs start (stop - start) ∈ f.items.map Item.form := by
  obtain ⟨b, hrhs⟩ := rhs_of_isUnary hp
  rw [hrhs] at h
  cases h with
  | @cons _ l _ x _ _ _ hx h =>
      cases h
      obtain ⟨hb, hi, hl⟩ := fields_of_form hx
      have hnames : p.rhsNames = [b] := by simp [Production.rhsNames, hrhs, Symbol.name]
      have hfire : (CykRule.unary p).fire [x] = some ⟨CykRule.name (.unary p),
          [CykRule.item p.lhs start l (Forest.fill (Tree.ofProduction p) [x.trees])]⟩ := by
        simp [CykRule.fire, hb, hi, hl, hnames, Symbol.name, Firing.one]
      rw [Nat.add_sub_cancel_left]
      exact ⟨_, hfire, List.mem_singleton_self _⟩

lemma exists_fire_general_of_chained (hne : p.rhs ≠ []) (h : Chained start xs p.rhs stop) :
    ∃ f, (CykRule.general p).fire xs = some f ∧
      form p.lhs start (stop - start) ∈ f.items.map Item.form := by
  have hempty : p.isEmpty = false := by simpa [Production.isEmpty] using hne
  have hjoin := h.joinAll_eq hne
  have hwalk : xs ∈ CykRule.spanOrders p xs :=
    Choice.mem_walks_length.2 ⟨.refl _, CykRule.isSome_walk_of_joinAll h.length_eq hjoin⟩
  obtain ⟨y, hy, hform⟩ : ∃ y ∈ Item.distinctForms
      ((CykRule.spanOrders p xs).filterMap (CykRule.joinAll p)), y.form =
        form p.lhs start (stop - start) :=
    Choice.exists_mem_distinctBy (List.mem_filterMap.2 ⟨xs, hwalk, hjoin⟩)
  refine ⟨⟨CykRule.name (.general p),
    Item.distinctForms ((CykRule.spanOrders p xs).filterMap (CykRule.joinAll p))⟩, ?_,
    List.mem_map.2 ⟨y, hy, hform⟩⟩
  simp only [CykRule.fire, hempty, Bool.false_eq_true, ↓reduceIte, Firing.ofItems]
  exact if_neg (by simpa using List.ne_nil_of_mem hy)

/-- A rule fires on spans that stand for the right-hand side. -/
lemma exists_fire_of_chained (hrule : Suits rule) (hne : rule.production.rhs ≠ [])
    (h : Chained start xs rule.production.rhs stop) :
    ∃ f, rule.fire xs = some f ∧
      form rule.production.lhs start (stop - start) ∈ f.items.map Item.form := by
  cases rule with
  | binary p => exact exists_fire_binary hrule h
  | unary p => exact exists_fire_unary hrule h
  | general p => exact exists_fire_general_of_chained hne h

/-- A rule has as many premises as there are symbols on the right-hand side. -/
lemma arity_eq_length (hrule : Suits rule) (hne : rule.production.rhs ≠ []) :
    rule.arity = rule.production.rhs.length := by
  cases rule with
  | binary p =>
      obtain ⟨b, c, hrhs⟩ := rhs_of_isBinary hrule
      simp [CykRule.production, hrhs, CykRule.arity]
  | unary p =>
      obtain ⟨b, hrhs⟩ := rhs_of_isUnary hrule
      simp [CykRule.production, hrhs, CykRule.arity]
  | general p => exact Nat.max_eq_left (List.length_pos_iff.2 hne)

variable [Weight W] {schema : Schema W} {F : Set Form}

/-- A closed set contains the form of the left-hand side over different spans whose forms it
contains. -/
lemma mem_of_chained (hF : schema.IsClosed F) (hmem : .cyk rule ∈ schema.rules)
    (hrule : Suits rule) (hne : rule.production.rhs ≠ [])
    (h : Chained start xs rule.production.rhs stop) (hxs : ∀ x ∈ xs, x.form ∈ F)
    (hnodup : (xs.map Item.form).Nodup) :
    form rule.production.lhs start (stop - start) ∈ F := by
  obtain ⟨f, hf, hform⟩ := exists_fire_of_chained hrule hne h
  have harity : xs.length = (Rule.cyk (W := W) rule).arity :=
    h.length_eq.trans (arity_eq_length hrule hne).symm
  obtain ⟨y, hy, heq⟩ := List.mem_map.1 hform
  exact heq ▸ hF.rules_mem _ hmem xs f hxs hnodup (Rule.fire?_eq_some.2 ⟨harity, hf⟩) y hy

end DeductiveParsing.Cyk
