/-
The trees of parsing by spans.

* `Cyk.Fits`, `Cyk.Fits.concludes`: what items carry, and what of it rules conclude;
* `Cyk.IsSpanSchema.composes`: the trees are put together from those of the antecedents.
-/
import DeductiveParsing.Proofs.Cyk.Schemas
import DeductiveParsing.Proofs.Deduction.Composition

namespace DeductiveParsing.Cyk

open ContextFree Grammar

variable {W : Type} {g : Grammar} {tokens : List String} {p : Production} {x y : Item W}
  {xs : List (Item W)} {schema : Schema W} {t : Tree} {i : ℕ}

/-! ### What items carry -/

/-- What items carry: trees for their name, whatever they spell, while the tokens that they cover
are in the input. -/
def Fits (g : Grammar) (tokens : List String) (x : Item W) : Prop :=
  ∃ name i l, x.form = form name i l ∧ name ∈ epsilon :: (tokens ++ g.lhsNames) ∧
    i + l ≤ tokens.length ∧ ∀ t ∈ x.trees, ∃ w, g.Spells [.nonterminal name] [t] w

lemma Fits.isSpan (h : Fits g tokens x) : IsSpan x := by
  obtain ⟨name, i, l, hform, -⟩ := h
  exact ⟨name, i, l, hform⟩

lemma Fits.carriesTrees (h : Fits g tokens x) : CarriesTrees g x := by
  obtain ⟨name, i, l, hform, -, -, htrees⟩ := h
  intro name' i' l' hform'
  obtain ⟨rfl, -, -⟩ := form_injective (hform.symm.trans hform')
  exact htrees

/-- The tree of a production without nonterminals is a tree for its left-hand side. -/
lemma spells_ofProduction (hp : p ∈ g.productions) (hrhs : ∀ s ∈ p.rhs, s.isTerminal = true) :
    g.Spells [.nonterminal p.lhs] [Tree.ofProduction p] (p.rhs.map Symbol.name) := by
  have hleaves : ∀ symbols : List Symbol, (∀ s ∈ symbols, s.isTerminal = true) →
      g.Spells symbols (Tree.leaves symbols) (symbols.map Symbol.name) := by
    intro symbols hsymbols
    induction symbols with
    | nil => exact .nil
    | cons s symbols ih =>
        rw [List.forall_mem_cons] at hsymbols
        obtain ⟨hs, hsymbols⟩ := hsymbols
        cases s with
        | terminal a => exact .leaf a (ih hsymbols)
        | nonterminal a => cases hs
  rw [Tree.ofProduction_eq_above]
  exact .singleton_node hp (hleaves _ hrhs)

lemma IsLexical.fits (h : IsLexical g tokens x) : Fits g tokens x := by
  cases h with
  | @token p a i hp hrhs htoken =>
      have hlt := (List.getElem?_eq_some_iff.1 htoken).1
      refine ⟨p.lhs, i, 1, rfl, ?_, hlt, fun t ht => ?_⟩
      · simp [lhsNames, List.mem_map_of_mem hp]
      · exact ⟨_, List.mem_singleton.1 ht ▸
          spells_ofProduction hp (by simp [hrhs, Symbol.isTerminal])⟩
  | @empty p hp hrhs htokens =>
      refine ⟨p.lhs, 0, 0, rfl, ?_, Nat.zero_le _, fun t ht => ?_⟩
      · simp [lhsNames, List.mem_map_of_mem hp]
      · exact ⟨_, List.mem_singleton.1 ht ▸ spells_ofProduction hp (by simp [hrhs])⟩

lemma IsMark.fits (h : IsMark tokens x) : Fits g tokens x := by
  cases h with
  | @token a i htoken =>
      have hlt := (List.getElem?_eq_some_iff.1 htoken).1
      refine ⟨a, i, 1, rfl, ?_, hlt, nofun⟩
      simp [List.mem_of_getElem? htoken]
  | @empty i hi => exact ⟨epsilon, i, 0, rfl, List.mem_cons_self, hi, nofun⟩

/-- Trees picked for symbols spell something. -/
lemma Picked.spells {place stop : ℕ} {symbols : List Symbol} {cs : List Tree}
    (hchain : Chained place xs symbols stop) (htrees : ∀ x ∈ xs, CarriesTrees g x)
    (h : Picked xs symbols cs) : ∃ w, g.Spells symbols cs w := by
  induction hchain generalizing cs with
  | nil =>
      cases h
      exact ⟨[], .nil⟩
  | @cons place l stop x s xs symbols hx _ ih =>
      have htrees' := fun y hy => htrees y (List.mem_cons_of_mem _ hy)
      cases h with
      | leaf _ a h =>
          obtain ⟨w, hw⟩ := ih htrees' h
          exact ⟨a :: w, .leaf a hw⟩
      | tree a hu h =>
          obtain ⟨w, hw⟩ := ih htrees' h
          obtain ⟨v, hv⟩ := htrees x List.mem_cons_self _ _ _ hx _ hu
          exact ⟨v ++ w, hv.append hw⟩

/-- What a rule concludes, and what the children of its trees are. -/
lemma Fits.concludes (hg : g.IsWellFormed) (hp : p ∈ g.productions)
    (hxs : ∀ x ∈ xs, Fits g tokens x) (h : Concludes p xs y) :
    Fits g tokens y ∧ ∀ t ∈ y.trees, ∀ c ∈ t.children,
      c.children = [] ∨ ∃ x ∈ xs, c ∈ x.trees := by
  have hname : p.lhs ∈ epsilon :: (tokens ++ g.lhsNames) := by
    simp [lhsNames, List.mem_map_of_mem hp]
  cases h with
  | @spans order start stop hne hperm hchain =>
      have horder : ∀ x ∈ order, Fits g tokens x := fun x hx => hxs x (hperm.subset hx)
      have htrees := fun x hx => (horder x hx).carriesTrees
      have hroom : ∀ x ∈ order, ∀ name i l, x.form = form name i l → i + l ≤ tokens.length := by
        intro x hx name i l hform
        obtain ⟨name', i', l', hform', -, hle, -⟩ := horder x hx
        obtain ⟨rfl, rfl, rfl⟩ := form_injective (hform.symm.trans hform')
        exact hle
      have hle := hchain.le
      have hstop := hchain.stop_le hne hroom
      -- the children of each tree are leaves and trees of spans
      have hpicked : ∀ t ∈ Forest.fill (Tree.ofProduction p)
          (CykRule.nonterminalForests order p.rhs),
          ∃ cs, Picked order p.rhs cs ∧ t = .above p.lhs cs :=
        fun t => (mem_fill_ofProduction_iff hg hp hchain htrees).1
      refine ⟨⟨p.lhs, start, stop - start, rfl, hname, by omega, fun t ht => ?_⟩,
        fun t ht c hc => ?_⟩
      · obtain ⟨cs, hcs, rfl⟩ := hpicked t ht
        obtain ⟨w, hw⟩ := hcs.spells hchain htrees
        exact ⟨w, .singleton_node hp hw⟩
      · obtain ⟨cs, hcs, rfl⟩ := hpicked t ht
        rcases Tree.mem_children_above hc with hc | ⟨-, rfl⟩
        · exact (hcs.mem c hc).imp_right fun ⟨x, hx, hmem⟩ => ⟨x, hperm.subset hx, hmem⟩
        · exact Or.inl rfl
  | @empty x i hrhs hxs' hx =>
      subst hxs'
      obtain ⟨name', i', l', hform, -, hle, -⟩ := hxs x List.mem_cons_self
      obtain ⟨-, rfl, rfl⟩ := form_injective (hx.symm.trans hform)
      refine ⟨⟨p.lhs, i, 0, rfl, hname, hle, fun t ht => ?_⟩, fun t ht c hc => Or.inl ?_⟩
      · exact ⟨_, List.mem_singleton.1 ht ▸ spells_ofProduction hp (by simp [hrhs])⟩
      · exact Tree.children_eq_nil_of_mem_ofProduction (List.mem_singleton.1 ht ▸ hc)

lemma Fits.merge (hx : Fits g tokens x) (hy : Fits g tokens y) (h : x.form = y.form) :
    Fits g tokens { x with trees := Forest.merge x.trees y.trees } := by
  have hcarries := hy.carriesTrees
  obtain ⟨name, i, l, hform, hname, hle, htrees⟩ := hx
  exact ⟨name, i, l, hform, hname, hle,
    fun t ht => (Forest.mem_merge ht).elim (htrees t) (hcarries _ _ _ (h.symm.trans hform) t)⟩

/-- There are finitely many forms of items. -/
lemma finite_forms (g : Grammar) (tokens : List String) :
    {f | ∃ name i l, f = form name i l ∧ name ∈ epsilon :: (tokens ++ g.lhsNames) ∧
      i + l ≤ tokens.length}.Finite := by
  refine (Set.Finite.image2 (fun name (il : ℕ × ℕ) => form name il.1 il.2)
    (List.finite_toSet (epsilon :: (tokens ++ g.lhsNames)))
    ((Set.finite_le_nat tokens.length).prod (Set.finite_le_nat tokens.length))).subset ?_
  rintro _ ⟨name, i, l, rfl, hname, hle⟩
  exact ⟨name, hname, (i, l), ⟨(Nat.le_add_right i l).trans hle, (Nat.le_add_left l i).trans hle⟩,
    rfl⟩

variable [Weight W]

namespace IsSpanSchema

lemma concludes (h : IsSpanSchema g tokens schema) {rule : Rule W} (hrule : rule ∈ schema.rules)
    (hxs : ∀ x ∈ xs, IsSpan x) {f : Firing W} (hf : rule.fire? xs = some f) (hy : y ∈ f.items) :
    ∃ p ∈ g.productions, Concludes p xs y := by
  obtain ⟨r, rfl, hr, hp⟩ := h.rules rule hrule
  obtain ⟨hlen, hf⟩ := Rule.fire?_eq_some.1 hf
  exact ⟨_, hp, concludes_of_fire hr hxs hlen hf y hy⟩

lemma preserves (h : IsSpanSchema g tokens schema) (hg : g.IsWellFormed) :
    schema.Preserves (Fits g tokens) where
  of_axiom a ha x hx := (h.axioms a ha x hx).elim IsLexical.fits IsMark.fits
  of_fire rule hrule xs f hxs hf y hy := by
    obtain ⟨p, hp, hconcludes⟩ := h.concludes hrule (fun x hx => (hxs x hx).isSpan) hf hy
    exact (Fits.concludes hg hp hxs hconcludes).1
  of_merge _ _ hx hy h := hx.merge hy h

/-- The trees of parsing by spans are put together from those of the antecedents. -/
noncomputable def composes (h : IsSpanSchema g tokens schema) (hg : g.IsWellFormed) :
    schema.Composes where
  Fits := Fits g tokens
  forms := (finite_forms g tokens).toFinset
  labels := g.labels
  width := g.width
  preserves := h.preserves hg
  form_mem := by
    rintro x ⟨name, i, l, hform, hname, hle, -⟩
    exact (Set.Finite.mem_toFinset _).2 ⟨name, i, l, hform, hname, hle⟩
  shape := by
    rintro x ⟨name, i, l, -, -, -, htrees⟩ t ht
    obtain ⟨w, hw⟩ := htrees t ht
    obtain ⟨p, hp, rfl, -⟩ := hw.exists_of_nonterminal
    exact hw.everywhere_isPlain (by simpa [Symbol.name] using lhs_mem_labels hp) t
      (List.mem_singleton_self t)
  axiom_child a ha x hx t ht c hc := by
    rcases h.axioms a ha x hx with hlexical | hmark
    · cases hlexical with
      | token | empty =>
          exact Tree.children_eq_nil_of_mem_ofProduction (List.mem_singleton.1 ht ▸ hc)
    · cases hmark with
      | token | empty => cases ht
  fire_child rule hrule xs f hxs hf y hy t ht c hc := by
    obtain ⟨p, hp, hconcludes⟩ := h.concludes hrule (fun x hx => (hxs x hx).isSpan) hf hy
    rcases (Fits.concludes hg hp hxs hconcludes).2 t ht c hc with hleaf | ⟨x, hx, hmem⟩
    · exact Or.inl hleaf
    · exact Or.inr ⟨x, hx, c, hmem, Or.inl rfl⟩

end IsSpanSchema

end DeductiveParsing.Cyk
