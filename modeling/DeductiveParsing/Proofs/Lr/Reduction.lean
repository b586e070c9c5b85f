/-
Reductions that a table announces go through.

* `ne_augmentedName`: the name of the added production stands nowhere else, so it is never entered;
* `Path.exists_entering`: a state has the dot in front of a production because it has a dot before
  the left-hand side;
* `Table.Walks`: the steps from the first state on that a table allows;
* `Reduction`: what a reduction finds on a stack;
* `exists_reduction`: it finds all that it needs when the table announces it;
* `reduction_succeeds`: so no reduction that the table announces is rejected in a run.
-/
import DeductiveParsing.Algorithm
import DeductiveParsing.Proofs.Deduction.Moments
import DeductiveParsing.Proofs.GrammarFile.ContextFree
import DeductiveParsing.Proofs.Lr.Recognition

namespace DeductiveParsing.Lr

open ContextFree Grammar

variable {W : Type} {g : Grammar} {tokens : List String} {p : Production} {x : Place} {b : String}
  {kernel : List Place} {steps : List (Symbol × ℕ)} {i n q r : ℕ}

/-! ### The name of the added production -/

/-- The start symbol with primes. -/
def primed (g : Grammar) (k : ℕ) : String :=
  g.start ++ String.ofList (List.replicate (k + 1) '\'')

lemma augmentedName_eq (g : Grammar) :
    augmentedName g =
      (((List.range (g.nonterminals.length + 1)).map (primed g)).find?
        fun name => !g.isNonterminal name).getD (primed g g.nonterminals.length) := rfl

lemma length_primed (g : Grammar) (k : ℕ) : (primed g k).length = g.start.length + (k + 1) := by
  simp [primed]

lemma primed_injective (g : Grammar) : Function.Injective (primed g) := by
  intro j k h
  have hlength := congrArg String.length h
  rw [length_primed, length_primed] at hlength
  omega

/-- There are more names with primes than declared ones, so one of them is found. -/
lemma exists_augmentedName (g : Grammar) :
    ∃ k, augmentedName g = primed g k ∧ augmentedName g ∉ g.nonterminals := by
  rw [augmentedName_eq]
  cases hfound : ((List.range (g.nonterminals.length + 1)).map (primed g)).find?
      fun name => !g.isNonterminal name with
  | some name =>
      obtain ⟨k, -, rfl⟩ := List.mem_map.1 (List.mem_of_find?_eq_some hfound)
      have hnew := List.find?_some hfound
      exact ⟨k, rfl, by simpa [isNonterminal] using hnew⟩
  | none =>
      have hdeclared : (List.range (g.nonterminals.length + 1)).map (primed g) ⊆
          g.nonterminals := by
        intro name hname
        have hnot := List.find?_eq_none.1 hfound name hname
        simpa [isNonterminal] using hnot
      have hnodup : ((List.range (g.nonterminals.length + 1)).map (primed g)).Nodup :=
        List.nodup_range.map (primed_injective g)
      have hle := (List.subperm_of_subset hnodup hdeclared).length_le
      rw [List.length_map, List.length_range] at hle
      omega

/-- No dot stands before the name of the added production. -/
lemma ne_augmentedName (hg : g.IsWellFormed)
    (hnext : x.next? (numbered g) = some (.nonterminal b)) : b ≠ augmentedName g := by
  obtain ⟨p, hp, hrhs⟩ := next?_eq_some.1 hnext
  obtain ⟨k, hprimed, hnew⟩ := exists_augmentedName g
  have hmem := List.mem_of_getElem? hrhs
  by_cases hzero : x.production = 0
  · -- the start symbol is shorter
    rw [hzero, numbered_zero] at hp
    obtain rfl := Option.some.inj hp
    obtain rfl := Symbol.nonterminal.inj (List.mem_singleton.1 hmem)
    intro heq
    have hlength := congrArg String.length (heq.trans hprimed)
    rw [length_primed] at hlength
    omega
  · rintro rfl
    exact hnew (hg.mem_nonterminals (mem_productions_of_numbered hp hzero) hmem)

/-! ### Productions that are entered -/

/-- A state has a dot before each of the names that it enters. -/
lemma exists_next?_of_mem_enteredNames (hg : g.IsWellFormed)
    (hb : b ∈ enteredNames (numbered g) kernel) :
    ∃ x ∈ closure (numbered g) kernel, x.next? (numbered g) = some (.nonterminal b) := by
  obtain ⟨x, hx, a, hnext, hreach⟩ := mem_enteredNames.1 hb
  clear hb
  induction hreach with
  | refl =>
      obtain ⟨p, hp, hrhs⟩ := next?_eq_some.1 hnext
      obtain ⟨hlt, -⟩ := List.getElem?_eq_some_iff.1 hrhs
      exact ⟨x, mem_closure.2 ⟨p, hp, hlt.le, Or.inl hx⟩, hnext⟩
  | tail _ hedge ih =>
      obtain ⟨y, hy, hname⟩ := ih
      obtain ⟨p, hp, rfl, hfront⟩ := mem_frontEdges.1 hedge
      obtain ⟨k, hk⟩ := List.mem_iff_getElem?.1 hp
      have hne : k ≠ 0 := by
        rintro rfl
        obtain rfl := Option.some.inj (numbered_zero.symm.trans hk)
        exact ne_augmentedName hg hname rfl
      exact ⟨⟨k, 0⟩, closure_enters hy hname hk hne, next?_eq_some.2 ⟨p, hk, hfront⟩⟩

/-- The state that a path leads to consists of the added production with the dot in front or of
places with the dot behind a symbol, and of what these enter. -/
lemma Path.exists_kernel (h : Path g steps q) :
    ∃ kernel, (Automaton.ofGrammar g).states[q]? = some (closure (numbered g) kernel) ∧
      ∀ x ∈ kernel, x.production ≠ 0 → x.dot ≠ 0 := by
  cases h with
  | nil =>
      refine ⟨[⟨0, 0⟩], (Automaton.isSound_ofGrammar g).first, fun x hx hzero => ?_⟩
      exact absurd (congrArg Place.production (List.mem_singleton.1 hx)) hzero
  | snoc _ hedge =>
      obtain ⟨s, -, ht⟩ := hedge.exists_states
      refine ⟨_, ht, fun x hx _ => ?_⟩
      obtain ⟨y, -, rfl⟩ := List.mem_map.1 hx
      exact Nat.succ_ne_zero y.2.dot

/-- A production has been entered because a dot stands before its left-hand side. -/
lemma Path.exists_entering (hg : g.IsWellFormed) (h : Path g steps q) (hn : n ≠ 0)
    (hp : (numbered g)[n]? = some p) (hplace : HasPlace g q ⟨n, 0⟩) :
    ∃ x, HasPlace g q x ∧ x.next? (numbered g) = some (.nonterminal p.lhs) := by
  obtain ⟨kernel, hstate, hkernel⟩ := h.exists_kernel
  obtain ⟨s, hs, hmem⟩ := hplace
  obtain rfl := Option.some.inj (hstate.symm.trans hs)
  obtain ⟨p', hp', -, hmem | ⟨-, -, hentered⟩⟩ := mem_closure.1 hmem
  · exact absurd rfl (hkernel _ hmem hn)
  · obtain rfl := Option.some.inj (hp.symm.trans hp')
    obtain ⟨x, hx, hnext⟩ := exists_next?_of_mem_enteredNames hg hentered
    exact ⟨x, ⟨_, hstate, hx⟩, hnext⟩

/-! ### Steps that a table allows -/

/-- Whether a table leads from one state to another over a symbol: it shifts a terminal, or it has a
goto on a nonterminal. -/
def Table.LeadsTo (table : Table) (q : ℕ) : Symbol → ℕ → Prop
  | .terminal a, r => .shift r ∈ table.actions q a
  | .nonterminal b, r => table.goto? q b = some r

/-- The steps from the first state on that a table allows, each with its symbol and the state it
leads to. -/
inductive Table.Walks (table : Table) : List (Symbol × ℕ) → ℕ → Prop where
  | nil : Table.Walks table [] 0
  | snoc {steps : List (Symbol × ℕ)} {q r : ℕ} {a : Symbol} (h : Table.Walks table steps q)
      (hleads : table.LeadsTo q a r) : Table.Walks table (steps ++ [(a, r)]) r

lemma leadsTo_iff_edge {a : Symbol} : (Table.ofGrammar g).LeadsTo q a r ↔ Edge g q a r := by
  cases a with
  | terminal a => exact shift_mem_actions
  | nonterminal b => exact goto?_eq_some

/-- The steps that the table of a grammar allows are the paths through its automaton. -/
lemma walks_iff_path : (Table.ofGrammar g).Walks steps q ↔ Path g steps q := by
  constructor
  · intro h
    induction h with
    | nil => exact .nil
    | snoc _ hleads ih => exact ih.snoc (leadsTo_iff_edge.1 hleads)
  · intro h
    induction h with
    | nil => exact .nil
    | snoc _ hedge ih => exact ih.snoc (leadsTo_iff_edge.2 hedge)

/-! ### Reductions -/

/-- What the reduction by a production finds on the stack of some steps: the last steps are over its
right-hand side, and the state below them has a goto on its left-hand side. -/
structure Reduction (table : Table) (n : ℕ) (steps : List (Symbol × ℕ)) where
  production : Production
  lower : List (Symbol × ℕ)
  upper : List (Symbol × ℕ)
  uncovered : ℕ
  target : ℕ
  production_eq : table.production? n = some production
  steps_eq : steps = lower ++ upper
  symbols_eq : upper.map Prod.fst = production.rhs
  walks : table.Walks lower uncovered
  goto_eq : table.goto? uncovered production.lhs = some target

namespace Reduction

variable {table : Table} (reduction : Reduction table n steps)

/-- The stack of the reduction's conclusion. -/
def conclusion : List (Symbol × ℕ) :=
  reduction.lower ++ [(.nonterminal reduction.production.lhs, reduction.target)]

/-- There is more on the stack than the right-hand side and its states. -/
lemma length_lt : 2 * reduction.production.rhs.length < (stackOf steps).length := by
  obtain ⟨p, lower, upper, t, r, -, rfl, hupper, -, -⟩ := reduction
  show 2 * p.rhs.length < _
  rw [← hupper, List.length_map, length_stackOf, List.length_append]
  omega

/-- The symbols on top of the stack are those of the right-hand side. -/
lemma unstack?_eq :
    LrRule.unstack? (stackOf steps) reduction.production = some (stackOf reduction.lower) := by
  obtain ⟨p, lower, upper, t, r, -, rfl, hupper, -, -⟩ := reduction
  exact unstack?_stackOf hupper

end Reduction

/-- What the table announces goes through, on the stack of every path. -/
theorem exists_reduction (hg : g.IsWellFormed) {y : Item W} (hy : y.form = form steps i)
    (hpath : Path g steps q)
    (hannounced : .reduce n ∈ (Table.ofGrammar g).actions q ((tokens[i]?).getD endMark)) :
    ∃ reduction : Reduction (Table.ofGrammar g) n steps,
      (LrRule.reduce n (Table.ofGrammar g) tokens).fire [y] =
        some ⟨LrRule.name (.reduce n (Table.ofGrammar g) tokens),
          [.ofForm (form reduction.conclusion i)]⟩ := by
  obtain ⟨hn, p, hp, hplace, hfollow⟩ := reduce_mem_actions.1 hannounced
  obtain ⟨lower, upper, t, rfl, hupper, hlower, hfront⟩ := hpath.exists_split hplace hp
  rw [List.take_length] at hupper
  -- where the production has been entered, the table goes on over its left-hand side
  obtain ⟨x, hx, hnext⟩ := hlower.exists_entering hg hn hp hfront
  obtain ⟨r, hedge⟩ := hx.exists_edge hnext
  exact ⟨⟨p, lower, upper, t, r, hp, rfl, hupper, walks_iff_path.2 hlower, goto?_eq_some.2 hedge⟩,
    fire_reduce hy hpath hlower hn hp hupper hplace hfollow hedge⟩

/-! ### Runs -/

variable [Weight W]

/-- Axiom and rules lead to configurations only. -/
lemma preserves_isConfiguration {schema : Schema W} (hschema : Schema.lr g tokens = .ok schema) :
    schema.Preserves fun x => IsConfiguration g tokens x.form where
  of_axiom := (isClosed_configurations hschema).axioms_mem
  of_fire _ hrule _ _ hxs hf y hy := (isConfiguration_of_fire hschema hrule hxs hf y hy).1
  of_merge _ _ hx _ _ := hx

variable (W) in
/-- For every grammar that is read from a file and has no empty productions, and for every input: at
every moment of a run, the stack of an item belongs to steps that the table allows, over symbols that
derive the tokens read so far. Whenever the cell of the last state and the next token, or the end
mark, has a reduction, the stack is long enough for it, with a state left below; the symbols on top
are those of the right-hand side, the state below has a goto on the left-hand side, and so the rule
fires. -/
theorem reduction_succeeds {file : String} (hread : GrammarFile.readContextFree file = .ok g)
    (hempty : g.hasEmptyProduction = false) (tokens : List String) :
    ∃ schema : Schema W, Algorithm.lr.compileTokens (.contextFree g) tokens = .ok schema ∧
      ∀ settings m, Deduction.Moment.Reaches settings schema (.start schema) m →
        ∀ x ∈ m.state.chart.items, ∃ steps q i, x.form = form steps i ∧
          (Table.ofGrammar g).Walks steps q ∧ stackState? (stackOf steps) = some q ∧
          i ≤ tokens.length ∧ g.Derives (steps.map Prod.fst) (word (tokens.take i)) ∧
          ∀ n, .reduce n ∈ (Table.ofGrammar g).actions q ((tokens[i]?).getD endMark) →
            ∃ reduction : Reduction (Table.ofGrammar g) n steps,
              2 * reduction.production.rhs.length < (stackOf steps).length ∧
              LrRule.unstack? (stackOf steps) reduction.production =
                some (stackOf reduction.lower) ∧
              stackState? (stackOf reduction.lower) = some reduction.uncovered ∧
              .lr (.reduce n (Table.ofGrammar g) tokens) ∈ schema.rules ∧
              (LrRule.reduce n (Table.ofGrammar g) tokens).fire [x] =
                some ⟨LrRule.name (.reduce n (Table.ofGrammar g) tokens),
                  [.ofForm (form reduction.conclusion i)]⟩ := by
  have hg := GrammarFile.isWellFormed_of_readContextFree hread
  obtain ⟨schema, hschema⟩ : ∃ schema : Schema W, Schema.lr g tokens = .ok schema := by
    rw [Schema.lr, hempty]
    exact ⟨_, rfl⟩
  refine ⟨schema, hschema, fun settings m hm x hx => ?_⟩
  obtain ⟨steps, q, i, hform, hpath, hi, hderives⟩ :=
    (Deduction.all_of_reaches (preserves_isConfiguration hschema) hm).holds x hx
  refine ⟨steps, q, i, hform, walks_iff_path.2 hpath, hpath.stackState?_stackOf, hi, hderives, ?_⟩
  intro n hannounced
  obtain ⟨reduction, hfire⟩ := exists_reduction hg hform hpath hannounced
  obtain ⟨hn, p, hp, -⟩ := reduce_mem_actions.1 hannounced
  obtain ⟨hlt, -⟩ := List.getElem?_eq_some_iff.1 hp
  exact ⟨reduction, reduction.length_lt, reduction.unstack?_eq,
    (walks_iff_path.1 reduction.walks).stackState?_stackOf,
    (mem_rules hschema).2 (Or.inr ⟨n, hn, hlt, rfl⟩), hfire⟩

/-- The file with the ambiguous grammar of letters. -/
def lettersFile : String :=
  "N = \x7b\"S\"\x7d\nT = \x7b\"a\"\x7d\nS = \"S\"\nP = \x7b\"S -> S S\", \"S -> a\"\x7d\n"

lemma read_lettersFile : GrammarFile.readContextFree lettersFile = .ok lettersGrammar := by
  decide +kernel

/-- Behind the only letter of an input the table announces the reduction to a part. -/
theorem exists_reduction_succeeds_letters :
    GrammarFile.readContextFree lettersFile = .ok lettersGrammar ∧
      lettersGrammar.hasEmptyProduction = false ∧
      ∃ (schema : Schema Float) (m : Deduction.Moment Float) (x : Item Float)
        (steps : List (Symbol × ℕ)) (reduction : Reduction (Table.ofGrammar lettersGrammar) 2 steps),
        Algorithm.lr.compileTokens (.contextFree lettersGrammar) ["a"] = .ok schema ∧
          Deduction.Moment.Reaches ⟨.accumulate, none⟩ schema (.start schema) m ∧
          x ∈ m.state.chart.items ∧ x.form = form steps 1 ∧
          reduction.production = ⟨"S", [.terminal "a"]⟩ ∧
          (LrRule.reduce 2 (Table.ofGrammar lettersGrammar) ["a"]).fire [x] =
            some ⟨LrRule.name (.reduce 2 (Table.ofGrammar lettersGrammar) ["a"]),
              [.ofForm (form reduction.conclusion 1)]⟩ := by
  have hempty : lettersGrammar.hasEmptyProduction = false := by decide
  obtain ⟨schema, hschema, hitems⟩ := reduction_succeeds Float read_lettersFile hempty ["a"]
  have hschema' : Schema.lr lettersGrammar ["a"] = .ok schema := hschema
  -- the first state leads over the letter to one that has the production at its end
  have hp : (numbered lettersGrammar)[2]? = some ⟨"S", [.terminal "a"]⟩ := rfl
  have hfront : HasPlace lettersGrammar 0 ⟨2, 0⟩ := hasPlace_first.enter hp (by decide) rfl
  have hnext : (Place.mk 2 0).next? (numbered lettersGrammar) = some (.terminal "a") := rfl
  obtain ⟨r, hedge⟩ := hfront.exists_edge hnext
  -- a run that has ended has read the letter
  obtain ⟨fuel, o, hrun⟩ : ∃ fuel o, Deduction.run ⟨.accumulate, none⟩ schema fuel = .ok o :=
    Deduction.exists_run rfl rfl (bounds hschema')
  obtain ⟨t, ht, -⟩ := Deduction.run_eq_ok hrun
  have hclosed :=
    (Deduction.isLeast_forms_of_finalState (isUnweighted_and_isUnambiguous hschema') ht).1
  obtain ⟨x, hx, hform⟩ := Chart.mem_forms_iff.1 <|
    mem_shift hschema' hclosed (mem_first hschema' hclosed) .nil rfl hedge
  obtain ⟨steps, q, i, hform', -, hstate, -, -, hreduce⟩ :=
    hitems _ _ (Deduction.reaches_of_finalState ht) x hx
  obtain ⟨hstack, rfl⟩ : stackOf steps = stackOf [(.terminal "a", r)] ∧ i = 1 := by
    simpa [form] using hform'.symm.trans hform
  have hstate' : stackState? (stackOf [(.terminal "a", r)]) = some r :=
    (Path.nil.snoc hedge).stackState?_stackOf
  obtain rfl : r = q := Option.some.inj (hstate'.symm.trans (hstack ▸ hstate))
  obtain ⟨reduction, -, -, -, -, hfire⟩ := hreduce 2 <| reduce_mem_actions.2
    ⟨by decide, _, hp, hedge.hasPlace_iff.2 ⟨hfront, hnext⟩, endMark_mem_followOf⟩
  exact ⟨read_lettersFile, hempty, schema, _, x, steps, reduction, hschema,
    Deduction.reaches_of_finalState ht, hx, hform',
    Option.some.inj (reduction.production_eq.symm.trans hp), hfire⟩

end DeductiveParsing.Lr
