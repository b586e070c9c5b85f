/-
Runs of top-down parsing that end.

* `TopDown.IsPartial`: the partial derivation trees that items carry;
* `TopDown.LeadsTo`: a production has one symbol on the right;
* `TopDown.not_transGen_leadsTo_of_rank`: with ranks that fall, no name leads to itself;
* `TopDown.finite_partialTrees`: unless such productions lead from a name to itself, there are
  finitely many partial trees with few leaves;
* `TopDown.exists_run_topDown`: then every run that keeps all derivations ends.
-/
import DeductiveParsing.GrammarFile.Reader
import DeductiveParsing.Proofs.ContextFree.Derivation
import DeductiveParsing.Proofs.Deduction.Termination
import DeductiveParsing.Proofs.TopDown.Rules
import DeductiveParsing.Proofs.Tree.Surgery

namespace DeductiveParsing.TopDown

open ContextFree Grammar Relation

variable {W : Type} {g : Grammar} {tokens : List String} {p : Production} {a : String} {m : ℕ}

/-! ### Partial derivation trees -/

/-- Whether a node is a leaf, or stands over the names of a right-hand side of its label. -/
def IsPiece (g : Grammar) (t : Tree) : Prop :=
  t.foot = false ∧ (t.children = [] ∨
    ∃ p ∈ g.productions, t.label = p.lhs ∧ t.children.map Tree.label = p.rhsNames)

/-- Whether a tree consists of productions. Its leaves may have any labels. -/
def IsPartial (g : Grammar) (t : Tree) : Prop := t.Everywhere (IsPiece g)

/-- The partial trees over a name that have at most `m` leaves. -/
def partialTrees (g : Grammar) (a : String) (m : ℕ) : Set Tree :=
  {t | IsPartial g t ∧ t.label = a ∧ t.count Tree.isLeaf ≤ m}

lemma isShallow_isLeaf : Tree.IsShallow Tree.isLeaf := fun _ _ h => h

lemma one_le_count_isLeaf (t : Tree) : 1 ≤ t.count Tree.isLeaf := by
  induction t using Tree.ind with
  | h label foot children ih =>
      rw [Tree.count_eq]
      cases children with
      | nil => simp [Tree.isLeaf]
      | cons c cs =>
          have := ih c List.mem_cons_self
          simp only [List.map_cons, List.sum_cons]
          omega

lemma isPartial_leaf (g : Grammar) (a : String) : IsPartial g (.leaf a) :=
  Tree.everywhere_iff.2 ⟨⟨rfl, Or.inl rfl⟩, by simp [Tree.leaf]⟩

lemma count_leaf (a : String) : (Tree.leaf a).count Tree.isLeaf = 1 := by
  rw [Tree.count_eq]
  rfl

lemma isPartial_ofProduction (hp : p ∈ g.productions) (hrhs : p.rhs ≠ []) :
    IsPartial g (.ofProduction p) := by
  rw [ofProduction_eq hrhs]
  refine Tree.everywhere_iff.2 ⟨⟨rfl, Or.inr ⟨p, hp, rfl, ?_⟩⟩, fun c hc => ?_⟩
  · simp [Tree.branch, Tree.leaf, Function.comp_def]
  · obtain ⟨b, -, rfl⟩ := List.mem_map.1 hc
    exact isPartial_leaf g b

lemma count_ofProduction (hrhs : p.rhs ≠ []) :
    (Tree.ofProduction p).count Tree.isLeaf = p.rhs.length := by
  rw [ofProduction_eq hrhs, Tree.count_eq]
  simp [Tree.branch, Tree.isLeaf, Production.rhsNames, Function.comp_def, count_leaf, hrhs]

/-- A production takes the place of a leaf of a partial tree. -/
lemma isPartial_substituteLeftmost? (hp : p ∈ g.productions) (hrhs : p.rhs ≠ []) {t t' : Tree}
    (ht : IsPartial g t) (h : t.substituteLeftmost? (.ofProduction p) = some t') :
    IsPartial g t' ∧ t'.label = t.label ∧
      t'.count Tree.isLeaf + 1 = t.count Tree.isLeaf + p.rhs.length := by
  obtain ⟨a, v, hv, hopen, hlabel, hreplace⟩ := Tree.substituteLeftmost?_eq_some h
  have hset : ∀ (t : Tree) (n : ℕ) (c c' : Tree), t.children[n]? = some c → c.label = c'.label →
      IsPiece g t → IsPiece g { t with children := t.children.set n c' } := by
    rintro t n c c' hc hcc' ⟨hfoot, hleaf | ⟨q, hq, hlhs, hnames⟩⟩
    · simp [hleaf] at hc
    · refine ⟨hfoot, Or.inr ⟨q, hq, hlhs, ?_⟩⟩
      obtain ⟨hn, rfl⟩ := List.getElem?_eq_some_iff.1 hc
      rw [← hnames, List.map_set, ← hcc']
      exact List.ext_getElem (by simp) fun i _ _ => by grind
  obtain ⟨hpartial, hroot⟩ := ht.replaceOn? (R := fun t u => t.label = u.label)
    (fun _ _ => rfl) hset (isPartial_ofProduction hp hrhs) hv hlabel hreplace
  have hcount := Tree.count_replaceOn? isShallow_isLeaf hv hreplace
  have hleaf : v.count Tree.isLeaf = 1 := by
    have hchildren : v.children = [] := by
      simp only [Tree.isOpen, Tree.isLeaf, Bool.and_eq_true] at hopen
      simpa using hopen.1.1
    rw [Tree.count_eq, hchildren]
    simp [Tree.isLeaf, hchildren]
  rw [count_ofProduction hrhs, hleaf] at hcount
  exact ⟨hpartial, hroot.symm, hcount⟩

/-- There are finitely many partial trees over a name if there are finitely many for the symbols of
its right-hand sides. -/
lemma finite_partialTrees_of (h : ∀ p ∈ g.productions, p.lhs = a → ∀ b ∈ p.rhsNames,
    (partialTrees g b (m + 1 - p.rhs.length)).Finite) : (partialTrees g a m).Finite := by
  have hproductions : {p | p ∈ g.productions ∧ p.lhs = a}.Finite :=
    (List.finite_toSet g.productions).subset fun p hp => hp.1
  have hbranches := hproductions.biUnion fun p hp =>
    (Choice.finite_forall₂ (h p hp.1 hp.2)).image (Tree.branch a)
  refine ((Set.finite_singleton (Tree.leaf a)).union hbranches).subset ?_
  rintro ⟨label, foot, children⟩ ⟨hpartial, rfl, hcount⟩
  obtain ⟨⟨rfl, hleaf | ⟨p, hp, rfl, hnames⟩⟩, hchildren⟩ := Tree.everywhere_iff.1 hpartial
  · obtain rfl : children = [] := hleaf
    exact Or.inl rfl
  · refine Or.inr (Set.mem_biUnion ⟨hp, rfl⟩ ⟨children, ?_, rfl⟩)
    -- every child leaves at least one leaf to each of the others
    have hsum : ∀ cs : List Tree, cs.length ≤ (cs.map (Tree.count Tree.isLeaf)).sum ∧
        ∀ c ∈ cs, c.count Tree.isLeaf + cs.length ≤
          (cs.map (Tree.count Tree.isLeaf)).sum + 1 := by
      intro cs
      induction cs with
      | nil => simp
      | cons c cs ih =>
          have hc := one_le_count_isLeaf c
          simp only [List.length_cons, List.map_cons, List.sum_cons, List.mem_cons]
          refine ⟨by omega, ?_⟩
          rintro d (rfl | hd)
          · omega
          · have := ih.2 d hd
            omega
    rw [Tree.count_eq] at hcount
    have hlength : children.length = p.rhs.length := by
      have := congrArg List.length hnames
      simpa [Production.rhsNames] using this
    change List.Forall₂ _ p.rhsNames children
    rw [← hnames, List.forall₂_map_left_iff, List.forall₂_same]
    intro c hc
    have hle := (hsum children).2 c hc
    refine ⟨hchildren c hc, rfl, ?_⟩
    simp only at hcount
    omega

/-- Whether a production of one name has just another one on its right-hand side. -/
def LeadsTo (g : Grammar) (a b : String) : Prop :=
  ∃ p ∈ g.productions, p.lhs = a ∧ p.rhsNames = [b]

/-- No name leads to itself if the only symbols of right-hand sides have lower ranks than the
left-hand sides. -/
lemma not_transGen_leadsTo_of_rank (rank : String → ℕ) (h : ∀ p ∈ g.productions, ∀ b ∈ p.rhsNames,
    p.rhsNames = [b] → rank b < rank p.lhs) (a : String) : ¬TransGen (LeadsTo g) a a := by
  have hstep : ∀ b c, LeadsTo g b c → rank b > rank c := by
    rintro b c ⟨p, hp, rfl, hnames⟩
    exact h p hp c (hnames ▸ List.mem_singleton_self c) hnames
  intro hcycle
  have hrank := hcycle.lift (p := (· > ·)) rank hstep
  rw [transGen_eq_self] at hrank
  exact hrank.false

/-- If no name leads to itself, there are finitely many partial trees with few leaves. -/
theorem finite_partialTrees (hempty : g.hasEmptyProduction = false)
    (hacyclic : ∀ a, ¬TransGen (LeadsTo g) a a) (a : String) (m : ℕ) :
    (partialTrees g a m).Finite := by
  induction m using Nat.strong_induction_on generalizing a with
  | _ m ih =>
      have hnone : ∀ b, b ∉ g.lhsNames → (partialTrees g b m).Finite := fun b hb =>
        finite_partialTrees_of fun p hp hlhs => absurd (List.mem_map.2 ⟨p, hp, hlhs⟩) hb
      by_cases ha : a ∈ g.lhsNames
      swap
      · exact hnone a ha
      -- names come before those that they are reached from
      have horder : IsStrictOrder String fun b a => TransGen (LeadsTo g) a b :=
        { irrefl := hacyclic, trans := fun _ _ _ hab hbc => hbc.trans hab }
      have hwell := (List.finite_toSet g.lhsNames).wellFoundedOn (r := fun b a =>
        TransGen (LeadsTo g) a b)
      refine hwell.induction (P := fun b => (partialTrees g b m).Finite) ha fun b _ ihb =>
        finite_partialTrees_of fun p hp hlhs c hc => ?_
      have hrhs := List.length_pos_iff.2 (rhs_ne_nil hempty hp)
      have hnames : p.rhsNames.length = p.rhs.length := List.length_map _
      by_cases hone : p.rhs.length = 1
      · obtain ⟨d, hd⟩ := List.length_eq_one_iff.1 (hnames.trans hone)
        obtain rfl : c = d := by simpa [hd] using hc
        rw [hone, Nat.add_sub_cancel]
        by_cases hmem : c ∈ g.lhsNames
        · exact ihb c hmem (.single ⟨p, hp, hlhs, hd⟩)
        · exact hnone c hmem
      · rcases Nat.eq_zero_or_pos m with rfl | hm
        · refine Set.finite_empty.subset fun t ht => ?_
          have := one_le_count_isLeaf t
          have := ht.2.2
          omega
        · exact ih _ (by omega) c

/-! ### Runs that end -/

/-- What items carry: partial trees with no more leaves than tokens have been read and symbols are
still to be found. There is room for these in the input. -/
def IsWithin (g : Grammar) (tokens : List String) (x : Item W) : Prop :=
  ∃ stack i, x.form = form stack i ∧ i ≤ tokens.length ∧ i + stack.length ≤ max tokens.length 1 ∧
    (∀ a ∈ stack, a ∈ g.start :: g.productions.flatMap Production.rhsNames) ∧
      ∀ t ∈ x.trees, IsPartial g t ∧ t.label ∈ g.lhsNames ∧
        t.count Tree.isLeaf ≤ i + stack.length

lemma isWithin_merge {x y : Item W} (hx : IsWithin g tokens x) (hy : IsWithin g tokens y)
    (h : x.form = y.form) :
    IsWithin g tokens { x with trees := Forest.merge x.trees y.trees } := by
  obtain ⟨stack, i, hform, hi, hroom, hnames, htrees⟩ := hx
  obtain ⟨stack', i', hform', -, -, -, htrees'⟩ := hy
  obtain ⟨rfl, rfl⟩ := form_injective (hform.symm.trans (h.trans hform'))
  exact ⟨stack, i, hform, hi, hroom, hnames,
    fun t ht => (Forest.mem_merge ht).elim (htrees t) (htrees' t)⟩

lemma isWithin_scan {x : Item W} {f : Firing W} (hx : IsWithin g tokens x)
    (h : TopDownRule.fire (.scan tokens) [x] = some f) : ∀ y ∈ f.items, IsWithin g tokens y := by
  obtain ⟨stack, i, hform, -, hroom, hnames, htrees⟩ := hx
  obtain ⟨top, rest, rfl, htoken, hitems⟩ := scan_eq_some hform h
  have hlt := (List.getElem?_eq_some_iff.1 htoken).1
  have hsum : i + 1 + rest.length = i + (top :: rest).length := by
    rw [List.length_cons]
    omega
  intro y hy
  rw [hitems, List.mem_singleton] at hy
  subst hy
  refine ⟨rest, i + 1, rfl, hlt, hsum ▸ hroom, fun a ha => hnames a (List.mem_cons_of_mem _ ha),
    fun t ht => ?_⟩
  rw [hsum]
  exact htrees t ht

lemma isWithin_predict (hempty : g.hasEmptyProduction = false) (hp : p ∈ g.productions)
    {x : Item W} {f : Firing W} (hx : IsWithin g tokens x)
    (h : TopDownRule.fire (.predict p tokens.length) [x] = some f) :
    ∀ y ∈ f.items, IsWithin g tokens y := by
  obtain ⟨stack, i, hform, hi, -, hnames, htrees⟩ := hx
  obtain ⟨rest, rfl, -, hroom, hitems⟩ := predict_eq_some hform h
  have hrhs := rhs_ne_nil hempty hp
  have hlength : (p.rhsNames ++ rest).length = p.rhs.length + rest.length := by
    simp [Production.rhsNames]
  intro y hy
  rw [hitems, List.mem_singleton] at hy
  subst hy
  refine ⟨p.rhsNames ++ rest, i, rfl, hi, by omega, fun a ha => ?_, fun t ht => ?_⟩
  · rcases List.mem_append.1 ha with ha | ha
    · exact List.mem_cons_of_mem _ (List.mem_flatMap.2 ⟨p, hp, ha⟩)
    · exact hnames a (List.mem_cons_of_mem _ ha)
  · rcases mem_predictedTrees.1 ht with ⟨-, rfl⟩ | ⟨u, hu, ht⟩
    · refine ⟨isPartial_ofProduction hp hrhs, List.mem_map_of_mem hp, ?_⟩
      rw [count_ofProduction hrhs]
      omega
    · obtain ⟨hpartial, hlabel, hcount⟩ := htrees u hu
      obtain ⟨hpartial', hlabel', hcount'⟩ := isPartial_substituteLeftmost? hp hrhs hpartial ht
      refine ⟨hpartial', hlabel' ▸ hlabel, ?_⟩
      rw [List.length_cons] at hcount
      omega

/-- Bounds for a run on a grammar in which no name leads to itself. -/
noncomputable def bounds [Weight W] {schema : Schema W}
    (hschema : Schema.topDown g tokens = .ok schema)
    (hacyclic : ∀ a, ¬TransGen (LeadsTo g) a a) : schema.Bounds :=
  have hempty := hasEmptyProduction_eq_false hschema
  have hpreserves : schema.Preserves (IsWithin g tokens) := preserves hschema
    ⟨[g.start], 0, rfl, Nat.zero_le _, by simp, by simp, nofun⟩
    (fun _ _ => isWithin_scan) (fun _ hp _ _ => isWithin_predict hempty hp)
    fun _ _ => isWithin_merge
  have hforms := Set.Finite.image2 form
    (Choice.finite_lists (g.start :: g.productions.flatMap Production.rhsNames)
      (max tokens.length 1)) (Set.finite_le_nat tokens.length)
  have htrees := (List.finite_toSet g.lhsNames).biUnion fun a _ =>
    finite_partialTrees hempty hacyclic a (max tokens.length 1)
  { Holds := IsWithin g tokens
    forms := hforms.toFinset
    trees := htrees.toFinset
    holds_axiom := hpreserves.of_axiom
    holds_fire := hpreserves.of_fire
    holds_merge := hpreserves.of_merge
    form_mem := by
      rintro x ⟨stack, i, hform, hi, hroom, hnames, -⟩
      rw [hform]
      exact (Set.Finite.mem_toFinset _).2 ⟨stack, ⟨by omega, hnames⟩, i, hi, rfl⟩
    tree_mem := by
      rintro x ⟨stack, i, -, -, hroom, -, htrees⟩ t ht
      obtain ⟨hpartial, hlabel, hcount⟩ := htrees t ht
      exact (Set.Finite.mem_toFinset _).2
        (Set.mem_biUnion hlabel ⟨hpartial, rfl, hcount.trans hroom⟩) }

/-- For every grammar without empty productions in which no name leads to itself by productions with
one symbol on the right, and for every input: a run of top-down parsing that keeps all derivations
ends. -/
theorem exists_run_topDown [Weight W] (hempty : g.hasEmptyProduction = false)
    (hacyclic : ∀ a, ¬TransGen (LeadsTo g) a a) (tokens : List String) :
    ∃ schema : Schema W, Schema.topDown g tokens = .ok schema ∧
      ∃ fuel o, Deduction.run ⟨.accumulate, none⟩ schema fuel = .ok o := by
  obtain ⟨schema, hschema⟩ : ∃ schema : Schema W, Schema.topDown g tokens = .ok schema := by
    rw [Schema.topDown, hempty]
    exact ⟨_, rfl⟩
  exact ⟨schema, hschema, Deduction.exists_run rfl rfl (bounds hschema hacyclic)⟩

/-- A file in which the start symbol leads to a letter or to itself twice. -/
def pairsFile : String :=
  "N = \x7b\"S\"\x7d\nT = \x7b\"a\"\x7d\nS = \"S\"\nP = \x7b\"S -> S S\", \"S -> a\"\x7d\n"

/-- The grammar in that file. -/
def pairsGrammar : Grammar :=
  ⟨["S"], ["a"], "S", [⟨"S", [.nonterminal "S", .nonterminal "S"]⟩, ⟨"S", [.terminal "a"]⟩]⟩

lemma read_pairsFile : GrammarFile.readContextFree pairsFile = .ok pairsGrammar := by
  decide +kernel

lemma acyclic_pairsGrammar : ∀ a, ¬TransGen (LeadsTo pairsGrammar) a a :=
  not_transGen_leadsTo_of_rank (fun a => if a = "S" then 1 else 0) (by decide)

/-- A run ends on three letters, although the start symbol is the first of two symbols that it leads
to. -/
theorem exists_run_topDown_pairs :
    ∃ (schema : Schema Float) (fuel : ℕ) (o : Outcome Float),
      GrammarFile.readContextFree pairsFile = .ok pairsGrammar ∧
      pairsGrammar.hasEmptyProduction = false ∧
      (∀ a, ¬TransGen (LeadsTo pairsGrammar) a a) ∧
      Schema.topDown pairsGrammar ["a", "a", "a"] = .ok schema ∧
      Deduction.run ⟨.accumulate, none⟩ schema fuel = .ok o := by
  have hempty : pairsGrammar.hasEmptyProduction = false := by decide
  obtain ⟨schema, hschema, fuel, o, h⟩ :=
    exists_run_topDown (W := Float) hempty acyclic_pairsGrammar ["a", "a", "a"]
  exact ⟨schema, fuel, o, read_pairsFile, hempty, acyclic_pairsGrammar, hschema, h⟩

end DeductiveParsing.TopDown
