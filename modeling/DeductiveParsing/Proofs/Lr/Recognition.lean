/-
What parsing with a parse table recognizes.

* `IsConfiguration`: a path through the automaton over symbols that derive the tokens read so far;
* `isConfiguration_of_fire`: the rules lead from configurations to configurations;
* `exists_path`: from a configuration with a dotted production the run gets to its end on every
  input that the symbols behind the dot derive, if something follows that may follow;
* `finite_configurations`: without empty productions there are finitely many configurations;
* `lr_isDerivable_exact`: runs end, and find a parse exactly of what the start symbol derives.
-/
import DeductiveParsing.Proofs.Deduction.Closure
import DeductiveParsing.Proofs.Lr.Table
import DeductiveParsing.Schema.ContextFree

namespace DeductiveParsing.Lr

open ContextFree Grammar Rewriting

variable {W : Type} {g : Grammar} {tokens : List String} {p : Production} {a : String}
  {steps lower upper : List (Symbol × ℕ)} {i n q r t : ℕ}

/-- The form of an item: the stack of a path, and the number of tokens read. -/
def form (steps : List (Symbol × ℕ)) (i : ℕ) : Form := [.sequence (stackOf steps), .index i]

/-! ### What the rules conclude -/

lemma fields_of_form {x : Item W} (h : x.form = form steps i) :
    x.sequence? 0 = some (stackOf steps) ∧ x.index? 1 = some i := by
  simp [Item.sequence?, Item.index?, Item.field?, h, form]

lemma stackOf_snoc (steps : List (Symbol × ℕ)) (x : Symbol) (q : ℕ) :
    stackOf (steps ++ [(x, q)]) = stackOf steps ++ [x.name, stateName q] := by
  rw [stackOf_append, List.flatMap_singleton]

lemma findSome?_shiftTarget? :
    ((Table.ofGrammar g).actions q a).findSome? LrRule.shiftTarget? = some r ↔
      Edge g q (.terminal a) r := by
  have hsound : ∀ {t : ℕ},
      ((Table.ofGrammar g).actions q a).findSome? LrRule.shiftTarget? = some t →
        Edge g q (.terminal a) t := by
    intro t h
    obtain ⟨action, hmem, htarget⟩ := List.exists_of_findSome?_eq_some h
    cases action with
    | shift u =>
        obtain rfl := Option.some.inj htarget
        exact shift_mem_actions.1 hmem
    | reduce u => cases htarget
    | accept => cases htarget
  refine ⟨hsound, fun h => ?_⟩
  have hsome : (((Table.ofGrammar g).actions q a).findSome? LrRule.shiftTarget?).isSome := by
    rw [List.findSome?_isSome_iff]
    exact ⟨.shift r, shift_mem_actions.2 h, rfl⟩
  obtain ⟨t, ht⟩ := Option.isSome_iff_exists.1 hsome
  rw [ht, (hsound ht).unique h]

/-- A shift reads a token and takes the edge over it. -/
lemma shift_eq_some {x : Item W} {f : Firing W} (hx : x.form = form steps i)
    (hpath : Path g steps q) (h : (LrRule.shift (Table.ofGrammar g) tokens).fire [x] = some f) :
    ∃ a r, tokens[i]? = some a ∧ Edge g q (.terminal a) r ∧
      f.items = [.ofForm (form (steps ++ [(.terminal a, r)]) (i + 1))] := by
  obtain ⟨hstack, hi⟩ := fields_of_form hx
  simp only [LrRule.fire, hstack, hi, hpath.stackState?_stackOf, Option.bind_eq_bind,
    Option.bind_some, Option.bind_eq_some_iff] at h
  obtain ⟨a, ha, r, hr, hf⟩ := h
  refine ⟨a, r, ha, findSome?_shiftTarget?.1 hr, ?_⟩
  rw [form, stackOf_snoc, ← Option.some.inj hf]
  rfl

lemma fire_shift {x : Item W} (hx : x.form = form steps i) (hpath : Path g steps q)
    (ha : tokens[i]? = some a) (hedge : Edge g q (.terminal a) r) :
    (LrRule.shift (Table.ofGrammar g) tokens).fire [x] =
      some ⟨"shift " ++ a, [.ofForm (form (steps ++ [(.terminal a, r)]) (i + 1))]⟩ := by
  obtain ⟨hstack, hi⟩ := fields_of_form hx
  simp only [LrRule.fire, hstack, hi, hpath.stackState?_stackOf, ha,
    findSome?_shiftTarget?.2 hedge, Option.bind_eq_bind, Option.bind_some]
  rw [form, stackOf_snoc]
  rfl

/-- A reduction goes back to the state in which a right-hand side began, and takes the edge over the
left-hand side. -/
lemma reduce_eq_some {x : Item W} {f : Firing W} (hx : x.form = form steps i)
    (hpath : Path g steps q)
    (h : (LrRule.reduce n (Table.ofGrammar g) tokens).fire [x] = some f) :
    ∃ p lower upper t r, p ∈ g.productions ∧ steps = lower ++ upper ∧
      upper.map Prod.fst = p.rhs ∧ Path g lower t ∧ Edge g t (.nonterminal p.lhs) r ∧
      f.items = [.ofForm (form (lower ++ [(.nonterminal p.lhs, r)]) i)] := by
  obtain ⟨hstack, hi⟩ := fields_of_form hx
  simp only [LrRule.fire, hstack, hi, hpath.stackState?_stackOf, Option.bind_eq_bind,
    Option.bind_some] at h
  split_ifs at h with hcontains
  obtain ⟨hn, p, hp, hplace, -⟩ := reduce_mem_actions.1 (List.contains_iff_mem.1 hcontains)
  -- the state says which symbols are on top of the stack
  obtain ⟨lower, upper, t, rfl, hupper, hlower, -⟩ := hpath.exists_split hplace hp
  rw [List.take_length] at hupper
  have hproduction : (Table.ofGrammar g).production? n = some p := hp
  simp only [hproduction, unstack?_stackOf hupper, hlower.stackState?_stackOf, Option.bind_some,
    Option.bind_eq_some_iff] at h
  obtain ⟨r, hr, hf⟩ := h
  refine ⟨p, lower, upper, t, r, mem_productions_of_numbered hp hn, rfl, hupper, hlower,
    goto?_eq_some.1 hr, ?_⟩
  rw [form, stackOf_snoc, ← Option.some.inj hf]
  rfl

lemma fire_reduce {x : Item W} (hx : x.form = form (lower ++ upper) i)
    (hpath : Path g (lower ++ upper) q) (hlower : Path g lower t) (hn : n ≠ 0)
    (hp : (numbered g)[n]? = some p) (hupper : upper.map Prod.fst = p.rhs)
    (hplace : HasPlace g q ⟨n, p.rhs.length⟩)
    (hfollow : (tokens[i]?).getD endMark ∈ followOf g p.lhs)
    (hedge : Edge g t (.nonterminal p.lhs) r) :
    (LrRule.reduce n (Table.ofGrammar g) tokens).fire [x] =
      some ⟨LrRule.name (.reduce n (Table.ofGrammar g) tokens),
        [.ofForm (form (lower ++ [(.nonterminal p.lhs, r)]) i)]⟩ := by
  obtain ⟨hstack, hi⟩ := fields_of_form hx
  have hcontains : ((Table.ofGrammar g).actions q ((tokens[i]?).getD endMark)).contains
      (.reduce n) = true :=
    List.contains_iff_mem.2 (reduce_mem_actions.2 ⟨hn, p, hp, hplace, hfollow⟩)
  have hproduction : (Table.ofGrammar g).production? n = some p := hp
  simp only [LrRule.fire, hstack, hi, hpath.stackState?_stackOf, hcontains, if_true, hproduction,
    unstack?_stackOf hupper, hlower.stackState?_stackOf, goto?_eq_some.2 hedge,
    Option.bind_eq_bind, Option.bind_some]
  rw [form, stackOf_snoc]
  rfl

/-! ### Configurations -/

/-- A configuration: the symbols of a path derive the tokens read so far. -/
def IsConfiguration (g : Grammar) (tokens : List String) (f : Form) : Prop :=
  ∃ steps q i, f = form steps i ∧ Path g steps q ∧ i ≤ tokens.length ∧
    g.Derives (steps.map Prod.fst) (word (tokens.take i))

lemma isConfiguration_first : IsConfiguration g tokens (form [] 0) :=
  ⟨[], 0, 0, rfl, .nil, Nat.zero_le _, .refl _⟩

variable {schema : Schema W}

lemma hasEmptyProduction_eq_false (hschema : Schema.lr g tokens = .ok schema) :
    g.hasEmptyProduction = false := by
  by_contra hne
  rw [Schema.lr, Bool.eq_true_of_not_eq_false hne] at hschema
  cases hschema

lemma schema_eq (hschema : Schema.lr g tokens = .ok schema) :
    schema = Schema.make [Schema.fact "axiom" (.ofForm (form [] 0))]
      (.lr (.shift (Table.ofGrammar g) tokens) ::
        (Table.ofGrammar g).ownNumbers.map fun n => .lr (.reduce n (Table.ofGrammar g) tokens))
      (((Table.ofGrammar g).goto? 0 g.start).map fun q =>
        .ofForm (form [(.nonterminal g.start, q)] tokens.length)).toList := by
  rw [Schema.lr, hasEmptyProduction_eq_false hschema] at hschema
  exact (Except.ok.inj hschema).symm

lemma mem_rules (hschema : Schema.lr g tokens = .ok schema) {rule : Rule W} :
    rule ∈ schema.rules ↔ rule = .lr (.shift (Table.ofGrammar g) tokens) ∨
      ∃ n, n ≠ 0 ∧ n < (numbered g).length ∧
        rule = .lr (.reduce n (Table.ofGrammar g) tokens) := by
  have hnumbers : ∀ n, n ∈ (Table.ofGrammar g).ownNumbers ↔ n ≠ 0 ∧ n < (numbered g).length := by
    intro n
    have hcount : (Table.ofGrammar g).productions.length = (numbered g).length := rfl
    rw [Table.ownNumbers, hcount, List.range_eq_range', List.drop_range', List.mem_range'_1]
    omega
  rw [schema_eq hschema, Schema.make, List.mem_cons, List.mem_map]
  refine or_congr_right (exists_congr fun n => ?_)
  rw [hnumbers, and_assoc, eq_comm]

lemma isUnweighted_and_isUnambiguous (hschema : Schema.lr g tokens = .ok schema) :
    ∀ rule ∈ schema.rules, rule.IsUnweighted ∧ rule.IsUnambiguous := by
  intro rule hrule
  rcases (mem_rules hschema).1 hrule with rfl | ⟨n, -, -, rfl⟩ <;> exact ⟨trivial, trivial⟩

variable [Weight W]

/-- The rules lead from configurations to configurations, which carry no trees. -/
lemma isConfiguration_of_fire (hschema : Schema.lr g tokens = .ok schema) {rule : Rule W}
    (hrule : rule ∈ schema.rules) {xs : List (Item W)} {f : Firing W}
    (hxs : ∀ x ∈ xs, IsConfiguration g tokens x.form) (hf : rule.fire? xs = some f) :
    ∀ y ∈ f.items, IsConfiguration g tokens y.form ∧ y.trees = [] := by
  obtain ⟨hlen, hf⟩ := Rule.fire?_eq_some.1 hf
  have harity : rule.arity = 1 := by
    rcases (mem_rules hschema).1 hrule with rfl | ⟨n, -, -, rfl⟩ <;> rfl
  obtain ⟨x, rfl⟩ := List.length_eq_one_iff.1 (hlen.trans harity)
  obtain ⟨steps, q, i, hx, hpath, hi, hderives⟩ := hxs x List.mem_cons_self
  intro y hy
  rcases (mem_rules hschema).1 hrule with rfl | ⟨n, -, -, rfl⟩
  · obtain ⟨a, r, ha, hedge, hitems⟩ := shift_eq_some hx hpath hf
    obtain rfl := List.mem_singleton.1 (hitems ▸ hy)
    obtain ⟨hlt, -⟩ := List.getElem?_eq_some_iff.1 ha
    refine ⟨⟨_, r, i + 1, rfl, hpath.snoc hedge, hlt, ?_⟩, rfl⟩
    rw [List.map_append, List.take_add_one, ha, Option.toList_some, word_append]
    exact hderives.append_right [.terminal a]
  · obtain ⟨p, lower, upper, t, r, hp, rfl, hupper, hlower, hedge, hitems⟩ :=
      reduce_eq_some hx hpath hf
    obtain rfl := List.mem_singleton.1 (hitems ▸ hy)
    refine ⟨⟨_, r, i, rfl, hlower.snoc hedge, hi, ?_⟩, rfl⟩
    have hreplace := Derives.replace (lower.map Prod.fst) [] (Replaces.of_mem hp)
    rw [List.append_nil, ← hupper, ← List.map_append] at hreplace
    rw [List.map_append]
    exact hreplace.trans hderives

/-- The configurations are closed under the rules. -/
lemma isClosed_configurations (hschema : Schema.lr g tokens = .ok schema) :
    schema.IsClosed {f | IsConfiguration g tokens f} := by
  refine ⟨fun a ha x hx => ?_, fun rule hrule xs f hxs _ hf y hy =>
    (isConfiguration_of_fire hschema hrule hxs hf y hy).1⟩
  rw [schema_eq hschema] at ha
  obtain rfl := List.mem_singleton.1 ha
  obtain rfl := List.mem_singleton.1 hx
  exact isConfiguration_first

/-! ### Every derivation is followed -/

section Closed

variable {F : Set Form}

lemma mem_first (hschema : Schema.lr g tokens = .ok schema) (hF : schema.IsClosed F) :
    form [] 0 ∈ F := by
  rw [schema_eq hschema] at hF
  exact hF.axioms_mem _ List.mem_cons_self _ List.mem_cons_self

lemma mem_shift (hschema : Schema.lr g tokens = .ok schema) (hF : schema.IsClosed F)
    (h : form steps i ∈ F) (hpath : Path g steps q) (ha : tokens[i]? = some a)
    (hedge : Edge g q (.terminal a) r) : form (steps ++ [(.terminal a, r)]) (i + 1) ∈ F :=
  hF.mem_of_fire ((mem_rules hschema).2 (Or.inl rfl)) [form steps i] (by simpa using h)
    (List.nodup_singleton _) (fire_shift rfl hpath ha hedge) (List.mem_singleton_self _)

lemma mem_reduce (hschema : Schema.lr g tokens = .ok schema) (hF : schema.IsClosed F)
    (h : form (lower ++ upper) i ∈ F) (hpath : Path g (lower ++ upper) q) (hlower : Path g lower t)
    (hn : n ≠ 0) (hp : (numbered g)[n]? = some p) (hupper : upper.map Prod.fst = p.rhs)
    (hplace : HasPlace g q ⟨n, p.rhs.length⟩)
    (hfollow : (tokens[i]?).getD endMark ∈ followOf g p.lhs)
    (hedge : Edge g t (.nonterminal p.lhs) r) :
    form (lower ++ [(.nonterminal p.lhs, r)]) i ∈ F := by
  obtain ⟨hlt, -⟩ := List.getElem?_eq_some_iff.1 hp
  exact hF.mem_of_fire ((mem_rules hschema).2 (Or.inr ⟨n, hn, hlt, rfl⟩)) [form (lower ++ upper) i]
    (by simpa using h) (List.nodup_singleton _)
    (fire_reduce rfl hpath hlower hn hp hupper hplace hfollow hedge) (List.mem_singleton_self _)

/-- What the input may go on with behind a production: with nothing behind the added one, and behind
another one with what follows its left-hand side. -/
def MayFollow (g : Grammar) (n : ℕ) (p : Production) (rest : List String) : Prop :=
  n = 0 ∧ rest = [] ∨ n ≠ 0 ∧ rest.head?.getD endMark ∈ followOf g p.lhs

/-- What the input goes on with behind a name in a production follows the name. -/
lemma MayFollow.mem_followOf {v rest : List String} (h : MayFollow g n p rest)
    (hp : (numbered g)[n]? = some p) {before behind : List Symbol} {b : String}
    (hrhs : p.rhs = before ++ .nonterminal b :: behind) (hbehind : g.Derives behind (word v)) :
    (v ++ rest).head?.getD endMark ∈ followOf g b := by
  rcases h with ⟨rfl, rfl⟩ | ⟨hn, h⟩
  · -- the added production consists of the start symbol
    obtain rfl := Option.some.inj (numbered_zero.symm.trans hp)
    obtain ⟨-, hstart, rfl⟩ := eq_of_singleton_eq_append hrhs
    obtain rfl := Symbol.nonterminal.inj hstart
    rw [eq_nil_of_derives hbehind]
    exact endMark_mem_followOf
  · have hoccurs : Occurs g p.lhs b behind :=
      ⟨p, mem_productions_of_numbered hp hn, rfl, before, hrhs⟩
    cases v with
    | nil => exact mem_followOf_of_ending hoccurs hbehind h
    | cons a v => exact mem_followOf_of_behind hoccurs hbehind

/-- From a configuration with a dotted production at its end, the run gets to one with that
production complete, over all that the symbols behind the dot derive. The induction is on how they
unfold: a terminal is shifted, and a nonterminal is put on the stack by a reduction, when the
symbols of its right-hand side have been put there. -/
theorem exists_path (hschema : Schema.lr g tokens = .ok schema) (hF : schema.IsClosed F)
    {symbols derived : List Symbol} (h : Unfolds g.Replaces symbols derived)
    {u v rest : List String} (hv : derived = word v) (htokens : tokens = u ++ v ++ rest)
    {dot : ℕ} (hp : (numbered g)[n]? = some p) (hdrop : p.rhs.drop dot = symbols)
    (hrest : MayFollow g n p rest) (hpath : Path g steps q) (hplace : HasPlace g q ⟨n, dot⟩)
    (hmem : form steps u.length ∈ F) :
    ∃ upper r, Path g (steps ++ upper) r ∧ upper.map Prod.fst = symbols ∧
      HasPlace g r ⟨n, dot + symbols.length⟩ ∧ form (steps ++ upper) (u ++ v).length ∈ F := by
  induction h generalizing u v rest n p dot steps q with
  | nil =>
      obtain rfl : v = [] := by simpa [word] using hv.symm
      exact ⟨[], q, by simpa using hpath, rfl, hplace, by simpa using hmem⟩
  | @keep x xs ys _ ih =>
      cases v with
      | nil => simp [word] at hv
      | cons a v =>
          obtain ⟨rfl, rfl⟩ := List.cons.inj hv
          obtain ⟨hnext, hdrop'⟩ := next?_of_drop_eq_cons hp hdrop
          obtain ⟨r, hedge⟩ := hplace.exists_edge hnext
          have htoken : tokens[u.length]? = some a := by simp [htokens]
          have hshift : form (steps ++ [(.terminal a, r)]) (u ++ [a]).length ∈ F := by
            simpa using mem_shift hschema hF hmem hpath htoken hedge
          have htokens' : tokens = (u ++ [a]) ++ v ++ rest := by simpa using htokens
          obtain ⟨upper, t, hpath', hsymbols, hplace', hmem'⟩ := ih rfl htokens' hp hdrop' hrest
            (hpath.snoc hedge) (hedge.hasPlace_iff.2 ⟨hplace, hnext⟩) hshift
          refine ⟨(.terminal a, r) :: upper, t, by simpa using hpath', by simp [hsymbols], ?_, ?_⟩
          · simpa [Nat.add_comm, Nat.add_left_comm] using hplace'
          · simpa using hmem'
  | @expand x rhs us xs ys hx hrhs hxs ihrhs ihxs =>
      obtain ⟨p', hp', rfl, rfl⟩ := hx
      obtain ⟨v₁, v₂, rfl, rfl, rfl⟩ := List.map_eq_append_iff.1 hv.symm
      obtain ⟨hnext, hdrop'⟩ := next?_of_drop_eq_cons hp hdrop
      obtain ⟨k, hk, hnumber⟩ := exists_number hp'
      obtain ⟨r, hedge⟩ := hplace.exists_edge hnext
      have hsplit : p.rhs = p.rhs.take dot ++ .nonterminal p'.lhs :: xs := by
        rw [← hdrop, List.take_append_drop]
      have hfollow := hrest.mem_followOf hp hsplit hxs.derives
      -- a production of the nonterminal is entered and comes to its end
      have htokens₁ : tokens = u ++ v₁ ++ (v₂ ++ rest) := by simpa using htokens
      obtain ⟨upper₁, t₁, hpath₁, hsymbols₁, hplace₁, hmem₁⟩ := ihrhs rfl htokens₁ hnumber
        (List.drop_zero) (Or.inr ⟨hk, hfollow⟩) hpath (hplace.enter hnumber hk hnext) hmem
      rw [Nat.zero_add] at hplace₁
      -- the reduction goes back to where it has been entered
      have hlookahead : (tokens[(u ++ v₁).length]?).getD endMark ∈ followOf g p'.lhs := by
        rw [htokens₁, List.getElem?_append_right le_rfl, Nat.sub_self, ← List.head?_eq_getElem?]
        exact hfollow
      have hreduce := mem_reduce hschema hF hmem₁ hpath₁ hpath hk hnumber hsymbols₁ hplace₁
        hlookahead hedge
      have htokens₂ : tokens = (u ++ v₁) ++ v₂ ++ rest := by simpa using htokens
      obtain ⟨upper₂, t₂, hpath₂, hsymbols₂, hplace₂, hmem₂⟩ := ihxs rfl htokens₂ hp hdrop' hrest
        (hpath.snoc hedge) (hedge.hasPlace_iff.2 ⟨hplace, hnext⟩) hreduce
      refine ⟨(.nonterminal p'.lhs, r) :: upper₂, t₂, by simpa using hpath₂, by simp [hsymbols₂],
        ?_, ?_⟩
      · simpa [Nat.add_comm, Nat.add_left_comm] using hplace₂
      · simpa using hmem₂

end Closed

/-! ### Runs -/

lemma Path.mem_transitions (h : Path g steps q) :
    ∀ step ∈ steps, step ∈ (Automaton.ofGrammar g).transitions.flatten := by
  induction h with
  | nil =>
      intro step hstep
      cases hstep
  | snoc _ hedge ih =>
      intro step hstep
      rcases List.mem_append.1 hstep with hstep | hstep
      · exact ih step hstep
      · obtain rfl := List.mem_singleton.1 hstep
        obtain ⟨edges, hedges, hmem⟩ := hedge
        exact List.mem_flatten.2 ⟨edges, List.mem_of_getElem? hedges, hmem⟩

/-- Without empty productions a stack has no more symbols than tokens have been read, so there are
finitely many configurations. -/
lemma finite_configurations (hempty : g.hasEmptyProduction = false) (tokens : List String) :
    {f | IsConfiguration g tokens f}.Finite := by
  have hpaths := Choice.finite_lists (Automaton.ofGrammar g).transitions.flatten tokens.length
  refine (Set.Finite.image2 form hpaths (Set.finite_le_nat tokens.length)).subset ?_
  rintro f ⟨steps, q, i, rfl, hpath, hi, hderives⟩
  refine ⟨steps, ⟨?_, hpath.mem_transitions⟩, i, hi, rfl⟩
  calc steps.length = (steps.map Prod.fst).length := (List.length_map _).symm
    _ ≤ (word (tokens.take i)).length :=
        length_le_of_unfolds hempty (unfolds_iff_derives.2 hderives)
    _ = min i tokens.length := by rw [word, List.length_map, List.length_take]
    _ ≤ tokens.length := Nat.min_le_right _ _

/-- Bounds for a run: its items are configurations without trees. -/
noncomputable def bounds (hschema : Schema.lr g tokens = .ok schema) : schema.Bounds where
  Holds x := IsConfiguration g tokens x.form ∧ x.trees = []
  forms := (finite_configurations (hasEmptyProduction_eq_false hschema) tokens).toFinset
  trees := ∅
  holds_axiom a ha x hx := by
    rw [schema_eq hschema] at ha
    obtain rfl := List.mem_singleton.1 ha
    obtain rfl := List.mem_singleton.1 hx
    exact ⟨isConfiguration_first, rfl⟩
  holds_fire rule hrule xs f hxs hf :=
    isConfiguration_of_fire hschema hrule (fun x hx => (hxs x hx).1) hf
  holds_merge x y hx hy _ := by
    refine ⟨hx.1, ?_⟩
    simp [hx.2, hy.2, Forest.merge]
  form_mem x hx := (Set.Finite.mem_toFinset _).2 hx.1
  tree_mem x hx := by simp [hx.2]

/-- The stack of the goal belongs to one step over the start symbol. -/
lemma steps_eq_of_goal {steps : List (Symbol × ℕ)} (hpath : Path g steps q)
    (hedge : Edge g 0 (.nonterminal g.start) r)
    (h : stackOf steps = stackOf [(.nonterminal g.start, r)]) :
    steps.map Prod.fst = [.nonterminal g.start] := by
  have hlen := congrArg List.length h
  rw [length_stackOf, length_stackOf] at hlen
  obtain ⟨⟨x, t⟩, rfl⟩ := List.length_eq_one_iff.1 (by simpa using hlen)
  obtain ⟨rfl, hedge'⟩ := hpath.edge_of_singleton
  have hgoal : Path g [(.nonterminal g.start, r)] r := Path.nil.snoc hedge
  have hstate := hpath.stackState?_stackOf
  rw [h, hgoal.stackState?_stackOf] at hstate
  obtain rfl := Option.some.inj hstate
  -- a terminal of the same name does not lead to a state behind the start symbol
  have hnext : (Place.mk 0 0).next? (numbered g) = some (.nonterminal g.start) := rfl
  have hplace := hedge.hasPlace_iff.2 ⟨hasPlace_first, hnext⟩
  have hx := (hedge'.hasPlace_iff.1 hplace).2
  rw [← Option.some.inj (hnext.symm.trans hx)]
  rfl

/-- When a run has ended, something is derivable exactly if the start symbol derives the input. -/
lemma isDerivable_iff_of_run {schema : Schema W} (hschema : Schema.lr g tokens = .ok schema)
    {settings : Settings} {fuel : ℕ} {o : Outcome W}
    (h : Deduction.run settings schema fuel = .ok o) :
    o.isDerivable = true ↔ g.Generates tokens := by
  obtain ⟨hleast, hderivable⟩ :=
    Deduction.isLeast_and_isDerivable_iff_of_run (isUnweighted_and_isUnambiguous hschema) h
  have hgoals : (∃ x ∈ schema.goals, x.form ∈ o.chart.forms) ↔
      ∃ r, Edge g 0 (.nonterminal g.start) r ∧
        form [(.nonterminal g.start, r)] tokens.length ∈ o.chart.forms := by
    rw [schema_eq hschema, Schema.exists_goal_make]
    constructor
    · rintro ⟨x, hx, hform⟩
      obtain ⟨r, hr, rfl⟩ := Option.map_eq_some_iff.1 (Option.mem_toList.1 hx)
      exact ⟨r, goto?_eq_some.1 hr, hform⟩
    · rintro ⟨r, hedge, hform⟩
      refine ⟨_, Option.mem_toList.2 (Option.map_eq_some_iff.2 ⟨r, ?_, rfl⟩), hform⟩
      exact goto?_eq_some.2 hedge
  rw [hderivable, hgoals]
  constructor
  · rintro ⟨r, hedge, hform⟩
    obtain ⟨steps, q, i, heq, hpath, -, hderives⟩ :=
      hleast.2 (isClosed_configurations hschema) hform
    obtain ⟨hstack, rfl⟩ : stackOf [(.nonterminal g.start, r)] = stackOf steps ∧
        tokens.length = i := by simpa [form] using heq
    rw [steps_eq_of_goal hpath hedge hstack.symm, List.take_length] at hderives
    exact hderives
  · intro hgenerates
    have hfirst : form [] ([] : List String).length ∈ o.chart.forms := mem_first hschema hleast.1
    obtain ⟨upper, r, hpath, hsymbols, -, hmem⟩ := exists_path hschema hleast.1
      (unfolds_iff_derives.2 hgenerates) rfl (List.append_nil _).symm numbered_zero rfl
      (Or.inl ⟨rfl, rfl⟩) .nil hasPlace_first hfirst
    obtain ⟨⟨x, t⟩, rfl⟩ := List.length_eq_one_iff.1 (by simpa using congrArg List.length hsymbols)
    obtain rfl : x = .nonterminal g.start := by simpa using hsymbols
    exact ⟨t, hpath.edge_of_singleton.2, hmem⟩

/-- Without empty productions, however ambiguous or left-recursive the grammar is and however many
actions stand in one cell of its table: the run of table-driven parsing that keeps all derivations
ends, and whenever a run has ended, something is derivable exactly if the start symbol derives the
input. -/
theorem lr_isDerivable_exact (hempty : g.hasEmptyProduction = false) (tokens : List String) :
    ∃ schema : Schema W, Schema.lr g tokens = .ok schema ∧
      (∃ fuel o, Deduction.run ⟨.accumulate, none⟩ schema fuel = .ok o) ∧
      ∀ settings fuel o, Deduction.run settings schema fuel = .ok o →
        (o.isDerivable = true ↔ g.Generates tokens) := by
  obtain ⟨schema, hschema⟩ : ∃ schema : Schema W, Schema.lr g tokens = .ok schema := by
    rw [Schema.lr, hempty]
    exact ⟨_, rfl⟩
  refine ⟨schema, hschema, Deduction.exists_run rfl rfl (bounds hschema), ?_⟩
  intro settings fuel o h
  exact isDerivable_iff_of_run hschema h

/-- The production of two parts with letters. -/
def partsProduction : Production := ⟨"S", [.nonterminal "S", .nonterminal "S"]⟩

/-- The ambiguous grammar of one letter or more. -/
def lettersGrammar : Grammar := ⟨["S"], ["a"], "S", [partsProduction, ⟨"S", [.terminal "a"]⟩]⟩

/-- A run on three letters ends with a parse. -/
theorem exists_lr_isDerivable_exact_letters :
    ∃ (schema : Schema Float) (fuel : ℕ) (o : Outcome Float),
      Schema.lr lettersGrammar ["a", "a", "a"] = .ok schema ∧
      Deduction.run ⟨.accumulate, none⟩ schema fuel = .ok o ∧ o.isDerivable = true := by
  have hone : lettersGrammar.Derives [.nonterminal "S"] [.terminal "a"] :=
    derives_of_production (p := ⟨"S", [.terminal "a"]⟩)
      (List.mem_cons_of_mem _ List.mem_cons_self) (.refl _)
  have htwo : lettersGrammar.Derives [.nonterminal "S"] [.terminal "a", .terminal "a"] :=
    derives_of_production (p := partsProduction) List.mem_cons_self (hone.append hone)
  have hthree : lettersGrammar.Generates ["a", "a", "a"] :=
    derives_of_production (p := partsProduction) List.mem_cons_self (hone.append htwo)
  obtain ⟨schema, hschema, ⟨fuel, o, h⟩, hexact⟩ :=
    lr_isDerivable_exact (W := Float) (g := lettersGrammar) rfl ["a", "a", "a"]
  exact ⟨schema, fuel, o, hschema, h, (hexact _ _ _ h).2 hthree⟩

end DeductiveParsing.Lr
