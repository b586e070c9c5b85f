/-
What shift-reduce parsing finds.

* `ShiftReduce.shift_eq_some`, `ShiftReduce.reduce_eq_some`: what the rules conclude;
* `ShiftReduce.preserves_isReading`: a stack derives the tokens that have been read;
* `ShiftReduce.bounds`: it is no longer than these, so that runs end;
* `ShiftReduce.mem_of_unfolds`: whatever derives tokens comes onto the stack when they are read;
* `ShiftReduce.shiftReduce_exact`: what is in the chart at the end.
-/
import DeductiveParsing.Algorithm
import DeductiveParsing.GrammarFile.Reader
import DeductiveParsing.Proofs.ContextFree.Names
import DeductiveParsing.Proofs.Deduction.Closure

namespace DeductiveParsing.ShiftReduce

open ContextFree Grammar Rewriting

variable {W : Type} {g : Grammar} {p : Production} {tokens names stack w : List String} {i : ℕ}

/-- The form of an item: the stack, and the number of tokens that have been read. -/
def form (stack : List String) (i : ℕ) : Form := [.sequence stack, .index i]

lemma form_injective {stack' : List String} {j : ℕ} (h : form stack i = form stack' j) :
    stack = stack' ∧ i = j := by
  simpa [form] using h

lemma fields_of_form {x : Item W} (h : x.form = form stack i) :
    x.sequence? 0 = some stack ∧ x.index? 1 = some i := by
  simp [Item.sequence?, Item.index?, Item.field?, h, form]

/-! ### Rules -/

/-- Names can be taken off a stack if they are on top of it. -/
lemma unstack?_eq_some {below : List String} :
    ShiftReduceRule.unstack? stack names = some below ↔ names ≠ [] ∧ stack = below ++ names := by
  simp only [ShiftReduceRule.unstack?, Option.ite_none_right_eq_some, Option.some.injEq]
  constructor
  · rintro ⟨⟨hne, hdrop⟩, rfl⟩
    have hsplit := List.take_append_drop (stack.length - names.length) stack
    rw [hdrop] at hsplit
    exact ⟨hne, hsplit.symm⟩
  · rintro ⟨hne, rfl⟩
    simp [hne]

section Rules

variable {x : Item W} {f : Firing W}

lemma fire_shift {a : String} (hx : x.form = form stack i) (ha : tokens[i]? = some a) :
    ShiftReduceRule.fire (.shift tokens) [x] =
      some ⟨"shift " ++ a, [.ofForm (form (stack ++ [a]) (i + 1))]⟩ := by
  obtain ⟨hstack, hi⟩ := fields_of_form hx
  simp only [ShiftReduceRule.fire, hstack, hi, ha, Option.bind_eq_bind, Option.bind_some]
  rfl

lemma shift_eq_some (hx : x.form = form stack i)
    (h : ShiftReduceRule.fire (.shift tokens) [x] = some f) :
    ∃ a, tokens[i]? = some a ∧ f.items = [.ofForm (form (stack ++ [a]) (i + 1))] := by
  obtain ⟨hstack, hi⟩ := fields_of_form hx
  simp only [ShiftReduceRule.fire, hstack, hi, Option.bind_eq_bind, Option.bind_some,
    Option.bind_eq_some_iff] at h
  obtain ⟨a, ha, h⟩ := h
  exact ⟨a, ha, congrArg Firing.items (Option.some.inj h).symm⟩

lemma fire_reduce (hp : p.rhs ≠ []) (hx : x.form = form (stack ++ p.rhsNames) i) :
    ShiftReduceRule.fire (.reduce p) [x] =
      some ⟨ShiftReduceRule.name (.reduce p), [.ofForm (form (stack ++ [p.lhs]) i)]⟩ := by
  obtain ⟨hstack, hi⟩ := fields_of_form hx
  have hbelow : ShiftReduceRule.unstack? (stack ++ p.rhsNames) p.rhsNames = some stack :=
    unstack?_eq_some.2 ⟨fun hnil => hp (List.map_eq_nil_iff.1 hnil), rfl⟩
  simp only [ShiftReduceRule.fire, hstack, hi, hbelow, Option.bind_eq_bind, Option.bind_some]
  rfl

lemma reduce_eq_some (hx : x.form = form stack i)
    (h : ShiftReduceRule.fire (.reduce p) [x] = some f) :
    ∃ below, stack = below ++ p.rhsNames ∧ f.items = [.ofForm (form (below ++ [p.lhs]) i)] := by
  obtain ⟨hstack, hi⟩ := fields_of_form hx
  simp only [ShiftReduceRule.fire, hstack, hi, Option.bind_eq_bind, Option.bind_some,
    Option.bind_eq_some_iff] at h
  obtain ⟨below, hbelow, h⟩ := h
  exact ⟨below, (unstack?_eq_some.1 hbelow).2, congrArg Firing.items (Option.some.inj h).symm⟩

end Rules

/-! ### The schema -/

/-- What an item says: its stack derives the tokens that have been read, by name, and holds nothing
but tokens and left-hand sides. Items carry no trees. -/
def IsReading (g : Grammar) (tokens : List String) (x : Item W) : Prop :=
  ∃ stack i, x.form = form stack i ∧ i ≤ tokens.length ∧
    g.DerivesNames stack (tokens.take i) ∧ (∀ a ∈ stack, a ∈ tokens ++ g.lhsNames) ∧ x.trees = []

section Schema

variable {schema : Schema W} (hschema : Schema.shiftReduce g tokens = .ok schema)
include hschema

lemma hasEmptyProduction_eq_false : g.hasEmptyProduction = false := by
  by_contra hne
  rw [Schema.shiftReduce, Bool.eq_true_of_not_eq_false hne] at hschema
  cases hschema

lemma schema_eq : schema = Schema.make [Schema.fact "axiom" (.ofForm (form [] 0))]
    (.shiftReduce (.shift tokens) :: g.productions.map fun p => .shiftReduce (.reduce p))
    [.ofForm (form [g.start] tokens.length)] := by
  rw [Schema.shiftReduce, hasEmptyProduction_eq_false hschema] at hschema
  exact (Except.ok.inj hschema).symm

lemma mem_rules {rule : Rule W} :
    rule ∈ schema.rules ↔ rule = .shiftReduce (.shift tokens) ∨
      ∃ p ∈ g.productions, rule = .shiftReduce (.reduce p) := by
  rw [schema_eq hschema]
  simp [Schema.make, eq_comm]

lemma isUnweighted_and_isUnambiguous :
    ∀ rule ∈ schema.rules, rule.IsUnweighted ∧ rule.IsUnambiguous := by
  intro rule hrule
  rcases (mem_rules hschema).1 hrule with rfl | ⟨p, -, rfl⟩ <;> exact ⟨trivial, trivial⟩

variable [Weight W]

/-- Shifting and reducing lead to readings only. -/
lemma preserves_isReading : schema.Preserves (IsReading g tokens) where
  of_axiom a ha x hx := by
    rw [schema_eq hschema] at ha
    obtain rfl := List.mem_singleton.1 ha
    obtain rfl := List.mem_singleton.1 hx
    exact ⟨[], 0, rfl, Nat.zero_le _, .refl [], nofun, rfl⟩
  of_fire rule hrule xs f hxs hf y hy := by
    obtain ⟨hlen, hf⟩ := Rule.fire?_eq_some.1 hf
    have hone : ∃ x, xs = [x] := by
      rcases (mem_rules hschema).1 hrule with rfl | ⟨p, -, rfl⟩ <;>
        exact List.length_eq_one_iff.1 hlen
    obtain ⟨x, rfl⟩ := hone
    obtain ⟨stack, i, hform, hi, hderives, hnames, -⟩ := hxs x List.mem_cons_self
    rcases (mem_rules hschema).1 hrule with rfl | ⟨p, hp, rfl⟩
    · obtain ⟨a, ha, hitems⟩ := shift_eq_some hform hf
      rw [hitems, List.mem_singleton] at hy
      subst hy
      refine ⟨stack ++ [a], i + 1, rfl, (List.getElem?_eq_some_iff.1 ha).1, ?_, ?_, rfl⟩
      · rw [List.take_add_one, ha]
        exact hderives.append_right [a]
      · rw [List.forall_mem_append, List.forall_mem_singleton]
        exact ⟨hnames, List.mem_append_left _ (List.mem_of_getElem? ha)⟩
    · obtain ⟨below, rfl, hitems⟩ := reduce_eq_some hform hf
      rw [hitems, List.mem_singleton] at hy
      subst hy
      refine ⟨below ++ [p.lhs], i, rfl, hi, ?_, ?_, rfl⟩
      · have hreplace := Derives.replace below [] (ReplacesName.of_mem hp)
        rw [List.append_nil] at hreplace
        exact hreplace.trans hderives
      · rw [List.forall_mem_append] at hnames ⊢
        refine ⟨hnames.1, List.forall_mem_singleton.2 (List.mem_append_right _ ?_)⟩
        exact List.mem_map_of_mem hp
  of_merge x y hx hy _ := by
    obtain ⟨stack, i, hform, hi, hderives, hnames, htrees⟩ := hx
    obtain ⟨-, -, -, -, -, -, htrees'⟩ := hy
    exact ⟨stack, i, hform, hi, hderives, hnames, by simp [htrees, htrees', Forest.merge]⟩

/-- Bounds for a run: a stack is no longer than what it derives. -/
noncomputable def bounds : schema.Bounds :=
  have hempty := hasEmptyProduction_eq_false hschema
  have hpreserves := preserves_isReading hschema
  have hforms := Set.Finite.image2 form
    (Choice.finite_lists (tokens ++ g.lhsNames) tokens.length) (Set.finite_le_nat tokens.length)
  { Holds := IsReading g tokens
    forms := hforms.toFinset
    trees := ∅
    holds_axiom := hpreserves.of_axiom
    holds_fire := hpreserves.of_fire
    holds_merge := hpreserves.of_merge
    form_mem := by
      rintro x ⟨stack, i, hform, hi, hderives, hnames, -⟩
      have hlength := length_le_of_derivesNames hempty hderives
      rw [List.length_take] at hlength
      rw [hform]
      exact (Set.Finite.mem_toFinset _).2 ⟨stack, ⟨by omega, hnames⟩, i, hi, rfl⟩
    tree_mem := by
      rintro x ⟨-, -, -, -, -, -, htrees⟩
      simp [htrees] }

/-- Whatever unfolds to tokens comes onto the stack when these are read. -/
lemma mem_of_unfolds {F : Set Form} (hF : schema.IsClosed F)
    (h : Unfolds g.ReplacesName names w) (stack before behind : List String)
    (htokens : tokens = before ++ w ++ behind) (hstack : form stack before.length ∈ F) :
    form (stack ++ names) (before.length + w.length) ∈ F := by
  induction h generalizing before behind stack with
  | nil => simpa using hstack
  | @keep a names w _ ih =>
      have ha : tokens[before.length]? = some a := by simp [htokens]
      have hshift : form (stack ++ [a]) (before.length + 1) ∈ F :=
        hF.mem_of_fire ((mem_rules hschema).2 (Or.inl rfl)) [form stack before.length]
          (by simpa using hstack) (List.nodup_singleton _)
          (Rule.fire?_eq_some.2 ⟨rfl, fire_shift rfl ha⟩) (List.mem_singleton_self _)
      have hrest := ih (stack ++ [a]) (before ++ [a]) behind (by simp [htokens])
        (by simpa using hshift)
      simpa [Nat.add_assoc, Nat.add_comm 1] using hrest
  | @expand a rhs u names w hx _ _ ihrhs ihnames =>
      obtain ⟨p, hp, rfl, rfl⟩ := hx
      have hrhs := ihrhs stack before (w ++ behind) (by simp [htokens]) hstack
      have hne := rhs_ne_nil (hasEmptyProduction_eq_false hschema) hp
      have hreduce : form (stack ++ [p.lhs]) (before.length + u.length) ∈ F :=
        hF.mem_of_fire ((mem_rules hschema).2 (Or.inr ⟨p, hp, rfl⟩)) [form (stack ++ p.rhsNames) _]
          (by simpa using hrhs) (List.nodup_singleton _)
          (Rule.fire?_eq_some.2 ⟨rfl, fire_reduce hne rfl⟩) (List.mem_singleton_self _)
      have hrest := ihnames (stack ++ [p.lhs]) (before ++ u) behind (by simp [htokens])
        (by simpa using hreduce)
      simpa [Nat.add_assoc] using hrest

/-- When a run has ended, its chart holds the stacks that derive a number of tokens by name. -/
lemma forms_eq {settings : Settings} {fuel : ℕ} {o : Outcome W}
    (h : Deduction.run settings schema fuel = .ok o) :
    o.chart.forms = {f | ∃ stack i, f = form stack i ∧ i ≤ tokens.length ∧
      g.DerivesNames stack (tokens.take i)} := by
  have hclosed := (Deduction.isLeast_and_isDerivable_iff_of_run
    (isUnweighted_and_isUnambiguous hschema) h).1.1
  refine Set.Subset.antisymm (fun f hf => ?_) ?_
  · obtain ⟨t, ht, rfl⟩ := Deduction.run_eq_ok h
    obtain ⟨x, hx, rfl⟩ := Chart.mem_forms_iff.1 hf
    obtain ⟨stack, i, hform, hi, hderives, -⟩ :=
      Deduction.holds_of_finalState (preserves_isReading hschema) ht x hx
    exact ⟨stack, i, hform, hi, hderives⟩
  · rintro _ ⟨stack, i, rfl, hi, hderives⟩
    have hstart : form [] 0 ∈ o.chart.forms := by
      rw [schema_eq hschema] at hclosed
      exact hclosed.axioms_mem _ List.mem_cons_self _ List.mem_cons_self
    have hmem := mem_of_unfolds hschema hclosed (unfolds_iff_derives.2 hderives) [] [] _
      (List.take_append_drop i tokens).symm hstart
    simpa [List.length_take, Nat.min_eq_left hi] using hmem

end Schema

variable (W) in
/-- For every grammar without empty productions and every input: the run ends, and when a run has
ended, its chart holds a stack for a number of tokens iff it derives that many tokens of the input
by name, and nothing else. So something is derivable iff the start symbol derives the input. -/
theorem shiftReduce_exact [Weight W] (hempty : g.hasEmptyProduction = false)
    (tokens : List String) :
    ∃ schema : Schema W,
      Algorithm.shiftReduce.compileTokens (.contextFree g) tokens = .ok schema ∧
      (∃ fuel o,
        Deduction.run ⟨(Algorithm.shiftReduce).policy, none⟩ schema fuel = .ok o) ∧
      ∀ settings fuel o, Deduction.run settings schema fuel = .ok o →
        o.chart.forms = {f | ∃ stack i, f = form stack i ∧ i ≤ tokens.length ∧
          g.DerivesNames stack (tokens.take i)} ∧
        (o.isDerivable = true ↔ g.DerivesNames [g.start] tokens) := by
  obtain ⟨schema, hschema⟩ : ∃ schema : Schema W, Schema.shiftReduce g tokens = .ok schema := by
    rw [Schema.shiftReduce, hempty]
    exact ⟨_, rfl⟩
  refine ⟨schema, hschema, Deduction.exists_run rfl rfl (bounds hschema),
    fun settings fuel o h => ⟨forms_eq hschema h, ?_⟩⟩
  have hderivable :=
    (Deduction.isLeast_and_isDerivable_iff_of_run (isUnweighted_and_isUnambiguous hschema) h).2
  have hgoals : (∃ x ∈ schema.goals, x.form ∈ o.chart.forms) ↔
      form [g.start] tokens.length ∈ o.chart.forms := by
    rw [schema_eq hschema, Schema.exists_goal_make]
    simp [Item.ofForm]
  rw [hderivable, hgoals, forms_eq hschema h]
  constructor
  · rintro ⟨stack, i, hform, -, hderives⟩
    obtain ⟨rfl, rfl⟩ := form_injective hform
    rwa [List.take_length] at hderives
  · intro hderives
    exact ⟨[g.start], tokens.length, rfl, le_rfl, by rwa [List.take_length]⟩

/-- A file in which the start symbol leads to itself, alone and with a letter behind it. -/
def loopsFile : String :=
  "N = \x7b\"S\"\x7d\nT = \x7b\"a\"\x7d\nS = \"S\"\n" ++
    "P = \x7b\"S -> S\", \"S -> S a\", \"S -> a\"\x7d\n"

/-- The grammar in that file. -/
def loopsGrammar : Grammar :=
  ⟨["S"], ["a"], "S", [⟨"S", [.nonterminal "S"]⟩, ⟨"S", [.nonterminal "S", .terminal "a"]⟩,
    ⟨"S", [.terminal "a"]⟩]⟩

lemma read_loopsFile : GrammarFile.readContextFree loopsFile = .ok loopsGrammar := by
  decide +kernel

/-- A run on two letters ends, and leaves the start symbol on the stack alone as well as before the
second letter. -/
theorem exists_shiftReduce_exact_loops :
    ∃ (schema : Schema Float) (fuel : ℕ) (o : Outcome Float),
      GrammarFile.readContextFree loopsFile = .ok loopsGrammar ∧
        loopsGrammar.hasEmptyProduction = false ∧
        Algorithm.shiftReduce.compileTokens (.contextFree loopsGrammar) ["a", "a"] = .ok schema ∧
        Deduction.run ⟨.accumulate, none⟩ schema fuel = .ok o ∧ o.isDerivable = true ∧
        form ["S", "a"] 2 ∈ o.chart.forms := by
  have hempty : loopsGrammar.hasEmptyProduction = false := by decide
  obtain ⟨schema, hschema, ⟨fuel, o, h⟩, hend⟩ := shiftReduce_exact Float hempty ["a", "a"]
  obtain ⟨hforms, hderivable⟩ := hend _ _ _ h
  have hletter : loopsGrammar.DerivesNames ["S"] ["a"] :=
    derivesNames_of_production (p := ⟨"S", [.terminal "a"]⟩) (by simp [loopsGrammar]) (.refl _)
  have hpair : loopsGrammar.DerivesNames ["S", "a"] ["a", "a"] := hletter.append_right ["a"]
  refine ⟨schema, fuel, o, read_loopsFile, hempty, hschema, h, hderivable.2 ?_, ?_⟩
  · exact derivesNames_of_production (p := ⟨"S", [.nonterminal "S", .terminal "a"]⟩)
      (by simp [loopsGrammar]) hpair
  · rw [hforms]
    exact ⟨["S", "a"], 2, rfl, le_rfl, hpair⟩

end DeductiveParsing.ShiftReduce
