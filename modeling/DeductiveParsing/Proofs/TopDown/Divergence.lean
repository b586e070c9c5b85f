/-
Runs of top-down parsing that do not end.

* `TopDown.HasLoop`: a production of the start symbol begins with a name that leads to itself;
* `TopDown.tower`: the trees with that name over itself any number of times;
* `TopDown.mem_of_excludes`: none of them stays out of a forest for another one, since the start
  symbol is at the root only;
* `TopDown.run_topDown_ne_ok`: runs do not end, since all of them would come into one forest.
-/
import DeductiveParsing.GrammarFile.Reader
import DeductiveParsing.Proofs.ContextFree.Derivation
import DeductiveParsing.Proofs.Deduction.Closure
import DeductiveParsing.Proofs.TopDown.Rules
import DeductiveParsing.Proofs.Tree.Substitution

namespace DeductiveParsing.TopDown

open ContextFree Grammar

variable {W : Type} {g : Grammar} {tokens : List String} {p : Production} {a : String}

/-! ### Loops -/

/-- A loop below the start symbol: a production of the start symbol begins with a name that leads to
itself, and there is room for it in the input. The start symbol stands on no right-hand side, and
no symbol there has the name of the empty string. -/
structure HasLoop (g : Grammar) (tokens : List String) (a : String) (rest : List String) :
    Prop where
  opens : ∃ p ∈ g.productions, p.lhs = g.start ∧ p.rhsNames = a :: rest
  loops : ∃ p ∈ g.productions, p.lhs = a ∧ p.rhsNames = [a]
  room : rest.length < tokens.length
  fresh : ∀ p ∈ g.productions, g.start ∉ p.rhsNames
  isOpen : ∀ p ∈ g.productions, ∀ b ∈ p.rhsNames, (Tree.leaf b).isOpen = true

/-- A name over itself, `k` times. -/
def chain (a : String) : ℕ → Tree
  | 0 => .leaf a
  | k + 1 => .branch a [chain a k]

/-- The production of the start symbol with the chain in its first place. -/
def tower (start a : String) (rest : List String) (k : ℕ) : Tree :=
  .branch start (chain a k :: rest.map Tree.leaf)

lemma chain_injective (a : String) : Function.Injective (chain a) := by
  intro k l h
  induction k generalizing l with
  | zero =>
      cases l with
      | zero => rfl
      | succ l => simp [chain, Tree.leaf, Tree.branch] at h
  | succ k ih =>
      cases l with
      | zero => simp [chain, Tree.leaf, Tree.branch] at h
      | succ l =>
          have hchildren := congrArg Tree.children h
          exact congrArg _ (ih (List.cons.inj hchildren).1)

lemma tower_injective (start a : String) (rest : List String) :
    Function.Injective (tower start a rest) := by
  intro k l h
  have hchildren := congrArg Tree.children h
  exact chain_injective a (List.cons.inj hchildren).1

/-- The loop makes a chain longer. -/
lemma substituteLeftmost?_chain (hopen : (Tree.leaf a).isOpen = true) (k : ℕ) :
    (chain a k).substituteLeftmost? (.branch a [.leaf a]) = some (chain a (k + 1)) := by
  induction k with
  | zero => exact Tree.substituteLeftmost?_leaf hopen rfl
  | succ k ih => exact Tree.substituteLeftmost?_child (List.forall_mem_nil _) ih

lemma substituteLeftmost?_tower (hopen : (Tree.leaf a).isOpen = true) (start : String)
    (rest : List String) (k : ℕ) :
    (tower start a rest k).substituteLeftmost? (.branch a [.leaf a]) =
      some (tower start a rest (k + 1)) :=
  Tree.substituteLeftmost?_child (List.forall_mem_nil _) (substituteLeftmost?_chain hopen k)

/-! ### Trees in which the start symbol is at the root only -/

/-- Whether the start symbol is at the root and nowhere else. -/
def StartsOnce (start : String) (t : Tree) : Prop :=
  t.label = start ∧ ∀ c ∈ t.children, c.Everywhere fun u => u.label ≠ start

/-- No such tree occurs below the root of another one, so that none stays out of a forest. -/
lemma mem_of_excludes {start : String} {forest : List Tree} {t : Tree}
    (hforest : ∀ u ∈ forest, StartsOnce start u) (ht : StartsOnce start t)
    (h : Forest.excludes forest t = true) : t ∈ forest := by
  refine Forest.mem_of_excludes h fun u hu => Tree.hasProperSubtree_eq_false_iff.2 ?_
  exact fun c hc hmem => ht.2 c hc u hmem (hforest u hu).1

/-- The number of open leaves with a label. -/
def openCount (b : String) (t : Tree) : ℕ := t.count fun u => u.isOpen && u.label == b

lemma isShallow_isOpen (b : String) : Tree.IsShallow fun u => u.isOpen && u.label == b := by
  intro t cs h
  simp only [Tree.isOpen, Tree.isLeaf, Tree.isEpsilon, h]

lemma openCount_leaf {b c : String} (hopen : (Tree.leaf b).isOpen = true) :
    openCount c (.leaf b) = if b = c then 1 else 0 := by
  rw [openCount, Tree.count_eq, hopen]
  simp [Tree.leaf]

lemma openCount_ofProduction (hrhs : p.rhs ≠ [])
    (hopen : ∀ b ∈ p.rhsNames, (Tree.leaf b).isOpen = true) (c : String) :
    openCount c (.ofProduction p) = p.rhsNames.count c := by
  have hsum : ∀ names : List String, (∀ b ∈ names, (Tree.leaf b).isOpen = true) →
      ((names.map Tree.leaf).map (openCount c)).sum = names.count c := by
    intro names
    induction names with
    | nil => exact fun _ => rfl
    | cons b names ih =>
        intro hnames
        rw [List.map_cons, List.map_cons, List.sum_cons, openCount_leaf (hnames b (by simp)),
          ih fun d hd => hnames d (List.mem_cons_of_mem _ hd), List.count_cons, Nat.add_comm]
        simp
  have hne : p.rhsNames ≠ [] := by simpa [Production.rhsNames] using hrhs
  have hroot : (Tree.branch p.lhs (p.rhsNames.map Tree.leaf)).isOpen = false := by
    simp [Tree.branch, Tree.isOpen, Tree.isLeaf, hne]
  rw [ofProduction_eq hrhs, openCount, Tree.count_eq, hroot]
  exact hsum p.rhsNames hopen

lemma startsOnce_ofProduction (hrhs : p.rhs ≠ []) (hfresh : p.lhs ∉ p.rhsNames) :
    StartsOnce p.lhs (.ofProduction p) := by
  rw [ofProduction_eq hrhs]
  refine ⟨rfl, fun c hc => ?_⟩
  obtain ⟨b, hb, rfl⟩ := List.mem_map.1 hc
  exact Tree.everywhere_iff.2 ⟨fun hlabel => hfresh (hlabel ▸ hb), by simp [Tree.leaf]⟩

/-- A production of another symbol leaves the start symbol at the root and nowhere else. -/
lemma StartsOnce.substituteLeftmost? {start : String} {t t' : Tree} (hrhs : p.rhs ≠ [])
    (hfresh : start ∉ p.rhsNames) (hlhs : p.lhs ≠ start) (ht : StartsOnce start t)
    (h : t.substituteLeftmost? (.ofProduction p) = some t') : StartsOnce start t' := by
  obtain ⟨a, v, hv, -, hlabel, hreplace⟩ := Tree.substituteLeftmost?_eq_some h
  have hnew : (Tree.ofProduction p).Everywhere fun u => u.label ≠ start := by
    rw [ofProduction_eq hrhs]
    refine Tree.everywhere_iff.2 ⟨hlhs, fun c hc => ?_⟩
    obtain ⟨b, hb, rfl⟩ := List.mem_map.1 hc
    exact Tree.everywhere_iff.2 ⟨fun hlabel => hfresh (hlabel ▸ hb), by simp [Tree.leaf]⟩
  obtain ⟨path⟩ := a
  cases path with
  | nil =>
      -- the root is no open leaf for the production
      rw [Tree.subtreeAt?, Tree.subtreeOn?, Option.some.injEq] at hv
      rw [← hv, ht.1] at hlabel
      exact absurd hlabel.symm hlhs
  | cons n path =>
      obtain ⟨k, c, c', rfl, hc, hc', rfl⟩ := Tree.replaceOn?_cons.1 hreplace
      rw [Tree.subtreeAt?, Tree.subtreeOn?_succ, hc, Option.bind_some] at hv
      refine ⟨ht.1, fun d hd => ?_⟩
      rcases List.mem_or_eq_of_mem_set hd with hd | rfl
      · exact ht.2 d hd
      · exact ((ht.2 c (List.mem_of_getElem? hc)).replaceOn? (R := fun _ _ => True)
          (fun _ _ => trivial) (fun _ _ _ _ _ _ h => h) hnew hv trivial hc').1

lemma openCount_substituteLeftmost? {t t' : Tree} (hrhs : p.rhs ≠ [])
    (hopen : ∀ b ∈ p.rhsNames, (Tree.leaf b).isOpen = true)
    (h : t.substituteLeftmost? (.ofProduction p) = some t') (c : String) :
    openCount c t' + (if p.lhs = c then 1 else 0) = openCount c t + p.rhsNames.count c := by
  obtain ⟨a, v, hv, hvopen, hlabel, hreplace⟩ := Tree.substituteLeftmost?_eq_some h
  have hcount := Tree.count_replaceOn? (isShallow_isOpen c) hv hreplace
  have hleaf : v.children = [] := by
    simp only [Tree.isOpen, Tree.isLeaf, Bool.and_eq_true] at hvopen
    simpa using hvopen.1.1
  have hold : openCount c v = if p.lhs = c then 1 else 0 := by
    rw [openCount, Tree.count_eq, hleaf, hvopen, hlabel]
    simp [Tree.ofProduction, Tree.branch]
  rw [← hold, ← openCount_ofProduction hrhs hopen c]
  exact hcount

/-! ### The forest above the loop -/

/-- What items carry: nothing at the start, and from then on, as long as anything is still to be
found, trees that have the start symbol at the root only and open leaves for all that. -/
def IsRooted (g : Grammar) (x : Item W) : Prop :=
  ∃ stack i, x.form = form stack i ∧ ((stack = [g.start] ∧ x.trees = []) ∨
    (g.start ∉ stack ∧ (stack ≠ [] → x.trees ≠ []) ∧ ∀ t ∈ x.trees, StartsOnce g.start t ∧
      ∀ b, stack.count b ≤ openCount b t))

lemma isRooted_merge {x y : Item W} (hx : IsRooted g x) (hy : IsRooted g y)
    (h : x.form = y.form) : IsRooted g { x with trees := Forest.merge x.trees y.trees } := by
  obtain ⟨stack, i, hform, hcases⟩ := hx
  obtain ⟨stack', i', hform', hcases'⟩ := hy
  obtain ⟨rfl, rfl⟩ := form_injective (hform.symm.trans (h.trans hform'))
  refine ⟨stack, i, hform, ?_⟩
  rcases hcases with ⟨rfl, hnil⟩ | ⟨hfresh, hne, htrees⟩
  · rcases hcases' with ⟨-, hnil'⟩ | ⟨hfresh, -⟩
    · exact Or.inl ⟨rfl, by simp [hnil, hnil', Forest.merge]⟩
    · simp at hfresh
  · rcases hcases' with ⟨rfl, -⟩ | ⟨-, -, htrees'⟩
    · simp at hfresh
    · refine Or.inr ⟨hfresh, fun hstack hnil => hne hstack ?_, fun t ht =>
        (Forest.mem_merge ht).elim (htrees t) (htrees' t)⟩
      exact List.prefix_nil.1 (hnil ▸ Forest.prefix_merge x.trees y.trees)

variable {rest : List String}

lemma HasLoop.isRooted_predict (hloop : HasLoop g tokens a rest)
    (hempty : g.hasEmptyProduction = false) (hp : p ∈ g.productions) {x : Item W} {f : Firing W}
    (hx : IsRooted g x) (h : TopDownRule.fire (.predict p tokens.length) [x] = some f) :
    ∀ y ∈ f.items, IsRooted g y := by
  obtain ⟨stack, i, hform, hcases⟩ := hx
  obtain ⟨below, rfl, -, -, hitems⟩ := predict_eq_some hform h
  have hrhs := rhs_ne_nil hempty hp
  have hfresh := hloop.fresh p hp
  have hopen := hloop.isOpen p hp
  intro y hy
  rw [hitems, List.mem_singleton] at hy
  subst hy
  refine ⟨p.rhsNames ++ below, i, rfl, Or.inr ?_⟩
  rcases hcases with ⟨hstart, hnil⟩ | ⟨hstack, hne, htrees⟩
  · obtain ⟨hlhs, rfl⟩ := List.cons.inj hstart
    have hmem : Tree.ofProduction p ∈ TopDownRule.predictedTrees p x.trees :=
      mem_predictedTrees.2 (Or.inl ⟨hnil, rfl⟩)
    refine ⟨by simpa using hfresh, fun _ => List.ne_nil_of_mem hmem, fun t ht => ?_⟩
    obtain ⟨-, rfl⟩ := (mem_predictedTrees.1 ht).resolve_right (by simp [hnil])
    rw [← hlhs] at hfresh ⊢
    refine ⟨startsOnce_ofProduction hrhs hfresh, fun b => ?_⟩
    rw [openCount_ofProduction hrhs hopen, List.append_nil]
  · have hne := hne (List.cons_ne_nil _ _)
    obtain ⟨hlhs, hbelow⟩ : g.start ≠ p.lhs ∧ g.start ∉ below := by simpa using hstack
    -- there is an open leaf for the production in every tree
    have hsome : ∀ u ∈ x.trees, ∃ t, u.substituteLeftmost? (.ofProduction p) = some t := by
      intro u hu
      refine Tree.exists_substituteLeftmost? ?_
      have hle := (htrees u hu).2 p.lhs
      rw [List.count_cons_self] at hle
      exact (Nat.succ_pos _).trans_le hle
    refine ⟨by simp [hfresh, hbelow], fun _ => ?_, fun t ht => ?_⟩
    · obtain ⟨u, hu⟩ := List.exists_mem_of_ne_nil _ hne
      obtain ⟨t, ht⟩ := hsome u hu
      exact List.ne_nil_of_mem (mem_predictedTrees.2 (Or.inr ⟨u, hu, ht⟩))
    · obtain ⟨u, hu, ht⟩ := (mem_predictedTrees.1 ht).resolve_left fun h => hne h.1
      refine ⟨(htrees u hu).1.substituteLeftmost? hrhs hfresh hlhs.symm ht, fun b => ?_⟩
      have hcount := openCount_substituteLeftmost? hrhs hopen ht b
      have hle := (htrees u hu).2 b
      rw [List.count_cons] at hle
      rw [List.count_append]
      simp only [beq_iff_eq] at hle
      omega

lemma isRooted_scan {x : Item W} {f : Firing W} (hx : IsRooted g x)
    (h : TopDownRule.fire (.scan tokens) [x] = some f) : ∀ y ∈ f.items, IsRooted g y := by
  obtain ⟨stack, i, hform, hcases⟩ := hx
  obtain ⟨top, below, rfl, -, hitems⟩ := scan_eq_some hform h
  intro y hy
  rw [hitems, List.mem_singleton] at hy
  subst hy
  refine ⟨below, i + 1, rfl, Or.inr ?_⟩
  rcases hcases with ⟨hstart, hnil⟩ | ⟨hstack, hne, htrees⟩
  · obtain ⟨-, rfl⟩ := List.cons.inj hstart
    exact ⟨List.not_mem_nil, fun hne => absurd rfl hne, by simp [Item.withTrees, hnil]⟩
  · refine ⟨fun hmem => hstack (List.mem_cons_of_mem _ hmem), fun _ => hne (List.cons_ne_nil _ _),
      fun t ht => ⟨(htrees t ht).1, fun b => le_trans ?_ ((htrees t ht).2 b)⟩⟩
    exact List.count_le_count_cons

lemma HasLoop.preserves_isRooted [Weight W] (hloop : HasLoop g tokens a rest) {schema : Schema W}
    (hschema : Schema.topDown g tokens = .ok schema) : schema.Preserves (IsRooted g) :=
  preserves hschema ⟨[g.start], 0, rfl, Or.inl ⟨rfl, rfl⟩⟩ (fun _ _ => isRooted_scan)
    (fun _ hp _ _ => hloop.isRooted_predict (hasEmptyProduction_eq_false hschema) hp)
    fun _ _ => isRooted_merge

section Loop

variable [Weight W] {schema : Schema W} {limit : Option ℕ} {fuel : ℕ} {t : Deduction.State W}
  {x z : Item W}

variable (hloop : HasLoop g tokens a rest) (hschema : Schema.topDown g tokens = .ok schema)
  (ht : Deduction.finalState ⟨.accumulate, limit⟩ schema fuel = .ok t)
include hloop hschema ht

/-- At the end of a run the start symbol has an item without trees. -/
lemma exists_start : ∃ x ∈ t.chart.items, x.form = form [g.start] 0 ∧ x.trees = [] := by
  have hclosed := Deduction.isClosed_forms_of_finalState
    (isUnweighted_and_isUnambiguous hschema) ht
  have hmem : form [g.start] 0 ∈ t.chart.forms := by
    refine hclosed.axioms_mem (Schema.fact "axiom" (.ofForm (form [g.start] 0))) ?_ _
      (List.mem_singleton_self _)
    rw [schema_eq hschema]
    exact List.mem_singleton_self _
  obtain ⟨x, hx, hxform⟩ := Chart.mem_forms_iff.1 hmem
  refine ⟨x, hx, hxform, ?_⟩
  obtain ⟨stack, i', hform, hcases⟩ :=
    Deduction.holds_of_finalState (hloop.preserves_isRooted hschema) ht x hx
  obtain ⟨rfl, -⟩ := form_injective (hform.symm.trans hxform)
  rcases hcases with ⟨-, hnil⟩ | ⟨hstack, -⟩
  · exact hnil
  · simp at hstack

/-- At the end of a run the item behind the production that begins with the loop has all trees that
a production leads to. -/
lemma mem_trees_of_predict (hp : p ∈ g.productions) (hx : x ∈ t.chart.items) {stack : List String}
    (hxform : x.form = form (p.lhs :: stack) 0) (hnames : p.rhsNames ++ stack = a :: rest) :
    ∃ z ∈ t.chart.items, z.form = form (a :: rest) 0 ∧
      ∀ u ∈ TopDownRule.predictedTrees p x.trees, u ∈ z.trees := by
  have hrooted := hloop.preserves_isRooted hschema
  have hrule : Rule.topDown (.predict p tokens.length) ∈ schema.rules :=
    (mem_rules hschema).2 (Or.inr ⟨p, hp, rfl⟩)
  have hroom := hloop.room
  have hfire : Rule.fire? (.topDown (.predict p tokens.length)) [x] =
      some ⟨TopDownRule.name (.predict p tokens.length),
        [.withTrees (form (p.rhsNames ++ stack) 0) (TopDownRule.predictedTrees p x.trees)]⟩ :=
    fire_predict hxform (Nat.zero_le _) (by rw [hnames, List.length_cons]; omega)
  rw [hnames] at hfire
  have hall := Deduction.holds_of_finalState hrooted ht
  have hy := hrooted.of_fire _ hrule _ _ (by simpa using hall x hx) hfire _
    (List.mem_singleton_self _)
  obtain ⟨z, hz, hzform, hkeeps⟩ :=
    Deduction.keeps_of_fire rfl ht hrule hx hfire (List.mem_singleton_self _)
  -- the trees have the start symbol at the root only, so that none stays out
  have honce : ∀ w : Item W, IsRooted g w → w.form = form (a :: rest) 0 →
      ∀ u ∈ w.trees, StartsOnce g.start u := by
    rintro w ⟨stack, i, hform, hcases⟩ hwform u hu
    rcases hcases with ⟨-, hnil⟩ | ⟨-, -, htrees⟩
    · simp [hnil] at hu
    · exact (htrees u hu).1
  exact ⟨z, hz, hzform, fun u hu =>
    mem_of_excludes (honce z (hall z hz) hzform) (honce _ hy rfl u hu) (hkeeps u hu)⟩

/-- At the end of a run the item behind the production that begins with the loop has the tree of
that production. -/
lemma exists_tower_zero :
    ∃ z ∈ t.chart.items, z.form = form (a :: rest) 0 ∧ tower g.start a rest 0 ∈ z.trees := by
  obtain ⟨p, hp, hlhs, hnames⟩ := hloop.opens
  obtain ⟨x, hx, hxform, hnil⟩ := exists_start hloop hschema ht
  obtain ⟨z, hz, hzform, htrees⟩ := mem_trees_of_predict hloop hschema ht hp hx
    (by rw [hxform, hlhs]) (by rw [hnames, List.append_nil])
  refine ⟨z, hz, hzform, htrees _ ?_⟩
  have htower : tower g.start a rest 0 = .ofProduction p := by
    rw [ofProduction_eq (rhs_ne_nil (hasEmptyProduction_eq_false hschema) hp), hnames, hlhs]
    rfl
  simp [TopDownRule.predictedTrees, hnil, htower]

/-- With a tower that item has the next one. -/
lemma tower_succ_mem (hz : z ∈ t.chart.items) (hzform : z.form = form (a :: rest) 0) {k : ℕ}
    (hk : tower g.start a rest k ∈ z.trees) : tower g.start a rest (k + 1) ∈ z.trees := by
  obtain ⟨p, hp, -, hnames⟩ := hloop.opens
  obtain ⟨q, hq, hlhs, hqnames⟩ := hloop.loops
  have hopen : (Tree.leaf a).isOpen = true := hloop.isOpen p hp a (by simp [hnames])
  obtain ⟨z', hz', hzform', htrees⟩ := mem_trees_of_predict hloop hschema ht hq hz
    (by rw [hzform, hlhs]) (by rw [hqnames, List.singleton_append])
  obtain rfl : z' = z := (Deduction.consistent_of_finalState ht).1.indexed.eq_of_items hz' hz
    (hzform'.trans hzform.symm)
  refine htrees _ ?_
  have hproduction : Tree.ofProduction q = .branch a [.leaf a] := by
    rw [ofProduction_eq (rhs_ne_nil (hasEmptyProduction_eq_false hschema) hq), hqnames, hlhs]
    rfl
  have hne : z'.trees.isEmpty = false := by
    simpa using List.ne_nil_of_mem hk
  rw [TopDownRule.predictedTrees, hne, if_neg Bool.false_ne_true, hproduction]
  exact List.mem_filterMap.2 ⟨_, hk, substituteLeftmost?_tower hopen _ _ _⟩

end Loop

/-- For every grammar with a loop below the start symbol and every input for which there is room:
runs of top-down parsing that keep all derivations do not end, however many steps are allowed. The
trees of the item behind the production that begins with the loop have the start symbol at the root
and the loop, any number of times, below it. None of them occurs in another one. -/
theorem run_topDown_ne_ok [Weight W] (hloop : HasLoop g tokens a rest) {schema : Schema W}
    (hschema : Schema.topDown g tokens = .ok schema) (limit : Option ℕ) (fuel : ℕ)
    (o : Outcome W) : Deduction.run ⟨.accumulate, limit⟩ schema fuel ≠ .ok o := by
  intro h
  obtain ⟨t, ht, -⟩ := Deduction.run_eq_ok h
  obtain ⟨z, hz, hzform, hzero⟩ := exists_tower_zero hloop hschema ht
  have htowers : ∀ k, tower g.start a rest k ∈ z.trees := by
    intro k
    induction k with
    | zero => exact hzero
    | succ k ih => exact tower_succ_mem hloop hschema ht hz hzform ih
  -- but a forest is finite
  exact Set.infinite_range_of_injective (tower_injective g.start a rest)
    ((List.finite_toSet z.trees).subset (Set.range_subset_iff.2 htowers))

/-- A file in which a loop lies below the start symbol. -/
def loopFile : String :=
  "N = \x7b\"S\", \"A\"\x7d\nT = \x7b\"a\"\x7d\nS = \"S\"\n" ++
    "P = \x7b\"S -> A\", \"A -> A\", \"A -> a\"\x7d\n"

/-- The grammar in that file. -/
def loopGrammar : Grammar :=
  ⟨["S", "A"], ["a"], "S",
    [⟨"S", [.nonterminal "A"]⟩, ⟨"A", [.nonterminal "A"]⟩, ⟨"A", [.terminal "a"]⟩]⟩

lemma read_loopFile : GrammarFile.readContextFree loopFile = .ok loopGrammar := by
  decide +kernel

lemma hasLoop_loopGrammar : HasLoop loopGrammar ["a"] "A" [] where
  opens := ⟨⟨"S", [.nonterminal "A"]⟩, by decide, rfl, rfl⟩
  loops := ⟨⟨"A", [.nonterminal "A"]⟩, by decide, rfl, rfl⟩
  room := by decide
  fresh := by decide
  isOpen := by decide

/-- Runs on one letter do not end, although it is generated without an empty production. -/
theorem run_topDown_ne_ok_loop :
    GrammarFile.readContextFree loopFile = .ok loopGrammar ∧
    loopGrammar.hasEmptyProduction = false ∧
    ∃ schema : Schema Float, Schema.topDown loopGrammar ["a"] = .ok schema ∧
      ∀ fuel o, Deduction.run ⟨.accumulate, none⟩ schema fuel ≠ .ok o := by
  obtain ⟨schema, hschema⟩ : ∃ schema : Schema Float,
      Schema.topDown loopGrammar ["a"] = .ok schema := ⟨_, rfl⟩
  exact ⟨read_loopFile, by decide, schema, hschema,
    run_topDown_ne_ok hasLoop_loopGrammar hschema none⟩

end DeductiveParsing.TopDown
