/-
What a parse table says in terms of its automaton, and what stands on a stack.

* `shift_mem_actions`, `goto?_eq_some`: shifts and gotos are the edges;
* `reduce_mem_actions`: a state reduces by a production whose end it has reached, before what
  follows its left-hand side;
* `stackOf`: the stack of a path;
* `Path.stackState?_stackOf`, `unstack?_stackOf`: the state that a path leads to, and the stack
  below a right-hand side.
-/
import DeductiveParsing.Inference.Lr
import DeductiveParsing.Proofs.Lr.Automaton
import DeductiveParsing.Proofs.Lr.Follow
import DeductiveParsing.Proofs.Text.Numeral

namespace DeductiveParsing.Lr

open ContextFree

variable {g : Grammar} {p : Production} {q r n : ℕ} {a b : String}

/-! ### Cells -/

lemma mem_actions {action : Action} :
    action ∈ (Table.ofGrammar g).actions q a ↔
      ∃ s edges, (Automaton.ofGrammar g).states[q]? = some s ∧
        (Automaton.ofGrammar g).transitions[q]? = some edges ∧
          (a, action) ∈ (rowOf (numbered g) (follows g) s edges).actions := by
  have hcell : ∀ row : Row, action ∈ Table.cell row a ↔ (a, action) ∈ row.actions := by
    intro row
    rw [Table.cell, List.mem_map]
    constructor
    · rintro ⟨⟨c, d⟩, h, rfl⟩
      obtain ⟨hmem, hc⟩ := List.mem_filter.1 h
      obtain rfl : c = a := by simpa using hc
      exact hmem
    · intro h
      exact ⟨(a, action), List.mem_filter.2 ⟨h, beq_self_eq_true a⟩, rfl⟩
  rw [Table.actions]
  split
  · rename_i row hrow
    obtain ⟨s, edges, hs, hedges, rfl⟩ := List.getElem?_zipWith_eq_some.1 hrow
    rw [hcell]
    constructor
    · intro h
      exact ⟨s, edges, hs, hedges, h⟩
    · rintro ⟨s', edges', hs', hedges', h⟩
      obtain rfl := Option.some.inj (hs.symm.trans hs')
      obtain rfl := Option.some.inj (hedges.symm.trans hedges')
      exact h
  · rename_i hrow
    constructor
    · intro h
      cases h
    · rintro ⟨s, edges, hs, hedges, -⟩
      have hsome := List.getElem?_zipWith_eq_some.2
        ⟨s, edges, hs, hedges, (rfl : rowOf (numbered g) (follows g) s edges = _)⟩
      exact absurd (hrow.symm.trans hsome) (by simp)

lemma mem_completionsAt {productions : List Production} {follow : List (String × List String)}
    {x : Place} {action : Action} (h : (a, action) ∈ completionsAt productions follow x) :
    action = .accept ∨ x.production ≠ 0 ∧ action = .reduce x.production ∧
      ∃ p, productions[x.production]? = some p ∧ x.dot = p.rhs.length ∧
        a ∈ (follow.lookup p.lhs).getD [] := by
  rw [completionsAt] at h
  split at h
  · cases h
  · rename_i p hp
    split_ifs at h with hdot hzero
    · cases h
    · exact Or.inl (Prod.mk.inj (List.mem_singleton.1 h)).2
    · obtain ⟨c, hc, heq⟩ := List.mem_map.1 h
      obtain ⟨rfl, rfl⟩ := Prod.mk.inj heq
      exact Or.inr ⟨hzero, rfl, p, hp, not_not.1 hdot, hc⟩

lemma reduce_mem_completionsAt {productions : List Production}
    {follow : List (String × List String)} (hn : n ≠ 0) (hp : productions[n]? = some p)
    (ha : a ∈ (follow.lookup p.lhs).getD []) :
    (a, .reduce n) ∈ completionsAt productions follow ⟨n, p.rhs.length⟩ := by
  rw [completionsAt]
  simp only [hp, ne_eq, not_true_eq_false, if_false, if_neg hn]
  exact List.mem_map.2 ⟨a, ha, rfl⟩

/-- The shifts of a state are its edges over terminals. -/
theorem shift_mem_actions :
    .shift r ∈ (Table.ofGrammar g).actions q a ↔ Edge g q (.terminal a) r := by
  rw [mem_actions]
  constructor
  · rintro ⟨s, edges, -, hedges, h⟩
    rcases List.mem_append.1 h with h | h
    · obtain ⟨⟨x, t⟩, hmem, hshift⟩ := List.mem_filterMap.1 h
      cases x with
      | terminal c =>
          obtain ⟨rfl, hstate⟩ := Prod.mk.inj (Option.some.inj hshift)
          obtain rfl := Action.shift.inj hstate
          exact ⟨edges, hedges, hmem⟩
      | nonterminal c => cases hshift
    · obtain ⟨x, -, hx⟩ := List.mem_flatMap.1 h
      rcases mem_completionsAt hx with heq | ⟨-, heq, -⟩ <;> cases heq
  · rintro ⟨edges, hedges, hmem⟩
    obtain ⟨s, hs, -⟩ := (Automaton.isSound_ofGrammar g).row q edges hedges
    refine ⟨s, edges, hs, hedges, List.mem_append_left _ ?_⟩
    exact List.mem_filterMap.2 ⟨(.terminal a, r), hmem, rfl⟩

/-- A state reduces by the productions of the grammar whose end it has reached, before everything
that follows their left-hand sides. -/
theorem reduce_mem_actions :
    .reduce n ∈ (Table.ofGrammar g).actions q a ↔
      n ≠ 0 ∧ ∃ p, (numbered g)[n]? = some p ∧ HasPlace g q ⟨n, p.rhs.length⟩ ∧
        a ∈ followOf g p.lhs := by
  rw [mem_actions]
  constructor
  · rintro ⟨s, edges, hs, -, h⟩
    rcases List.mem_append.1 h with h | h
    · obtain ⟨⟨x, t⟩, -, hshift⟩ := List.mem_filterMap.1 h
      cases x with
      | terminal c => cases (Prod.mk.inj (Option.some.inj hshift)).2
      | nonterminal c => cases hshift
    · obtain ⟨⟨i, dot⟩, hx, hmem⟩ := List.mem_flatMap.1 h
      rcases mem_completionsAt hmem with heq | ⟨hi, heq, p, hp, hdot, ha⟩
      · cases heq
      · obtain rfl := Action.reduce.inj heq
        obtain rfl : dot = p.rhs.length := hdot
        rw [lookup_follows (mem_productions_of_numbered hp hi)] at ha
        exact ⟨hi, p, hp, ⟨s, hs, hx⟩, ha⟩
  · rintro ⟨hn, p, hp, ⟨s, hs, hx⟩, ha⟩
    obtain ⟨hlt, -⟩ := List.getElem?_eq_some_iff.1 hs
    rw [← Automaton.length_transitions g] at hlt
    refine ⟨s, _, hs, List.getElem?_eq_getElem hlt, List.mem_append_right _ ?_⟩
    refine List.mem_flatMap.2 ⟨_, hx, reduce_mem_completionsAt hn hp ?_⟩
    rw [lookup_follows (mem_productions_of_numbered hp hn)]
    exact ha

lemma mem_gotos {edges : List (Symbol × ℕ)} :
    (b, r) ∈ edges.filterMap gotoOf? ↔ (.nonterminal b, r) ∈ edges := by
  rw [List.mem_filterMap]
  constructor
  · rintro ⟨⟨x, u⟩, hx, hgoto⟩
    cases x with
    | terminal c => cases hgoto
    | nonterminal c =>
        obtain ⟨rfl, rfl⟩ := Prod.mk.inj (Option.some.inj hgoto)
        exact hx
  · intro h
    exact ⟨_, h, rfl⟩

lemma edge_of_goto? (h : (Table.ofGrammar g).goto? q b = some r) : Edge g q (.nonterminal b) r := by
  obtain ⟨row, hrow, hlookup⟩ := Option.bind_eq_some_iff.1 h
  obtain ⟨s, edges, -, hedges, rfl⟩ := List.getElem?_zipWith_eq_some.1 hrow
  obtain ⟨before, after, heq, -⟩ := List.lookup_eq_some_iff.1 hlookup
  have hgotos : edges.filterMap gotoOf? = before ++ (b, r) :: after := heq
  have hmem : (b, r) ∈ edges.filterMap gotoOf? :=
    hgotos ▸ List.mem_append_right _ List.mem_cons_self
  exact ⟨edges, hedges, mem_gotos.1 hmem⟩

/-- The gotos of a state are its edges over nonterminals. -/
theorem goto?_eq_some :
    (Table.ofGrammar g).goto? q b = some r ↔ Edge g q (.nonterminal b) r := by
  refine ⟨edge_of_goto?, fun h => ?_⟩
  obtain ⟨edges, hedges, hedge⟩ := h
  obtain ⟨s, hs, -⟩ := (Automaton.isSound_ofGrammar g).row q edges hedges
  have hrow : (Table.ofGrammar g).rows[q]? = some (rowOf (numbered g) (follows g) s edges) :=
    List.getElem?_zipWith_eq_some.2 ⟨s, edges, hs, hedges, rfl⟩
  -- some state is found, and no other one can be
  have hsome : ((edges.filterMap gotoOf?).lookup b).isSome := by
    rw [List.lookup_isSome_iff]
    exact ⟨(b, r), mem_gotos.2 hedge, beq_self_eq_true b⟩
  obtain ⟨t, ht⟩ := Option.isSome_iff_exists.1 hsome
  have hgoto : (Table.ofGrammar g).goto? q b = some t := by
    rw [Table.goto?, hrow]
    exact ht
  rw [hgoto, (edge_of_goto? hgoto).unique ⟨edges, hedges, hedge⟩]

/-! ### Stacks -/

/-- The stack of a path: its states by their names, with the symbols between them. -/
def stackOf (steps : List (Symbol × ℕ)) : List String :=
  stateName 0 :: steps.flatMap fun step => [step.1.name, stateName step.2]

lemma stackOf_append (lower upper : List (Symbol × ℕ)) :
    stackOf (lower ++ upper) =
      stackOf lower ++ upper.flatMap fun step => [step.1.name, stateName step.2] := by
  rw [stackOf, stackOf, List.flatMap_append, List.cons_append]

lemma length_stackOf (steps : List (Symbol × ℕ)) :
    (stackOf steps).length = 2 * steps.length + 1 := by
  induction steps with
  | nil => rfl
  | cons step steps ih =>
      simp only [stackOf, List.flatMap_cons, List.length_cons, List.length_append,
        List.length_nil] at ih ⊢
      omega

lemma stackState?_of_getLast? {stack : List String} (h : stack.getLast? = some (stateName q)) :
    stackState? stack = some q := by
  have hname : (stateName q).toList = 'q' :: q.repr.toList := String.toList_append
  rw [stackState?, h, Option.map_some, hname]
  exact Text.readNumber?_repr q

/-- The stack of a path ends in the state that the path leads to. -/
lemma Path.stackState?_stackOf {steps : List (Symbol × ℕ)} (h : Path g steps q) :
    stackState? (stackOf steps) = some q := by
  refine stackState?_of_getLast? ?_
  cases h with
  | nil => rfl
  | snoc _ _ =>
      rw [stackOf_append]
      simp

lemma everySecond_flatMap (steps : List (Symbol × ℕ)) :
    LrRule.everySecond (steps.flatMap fun step => [step.1.name, stateName step.2]) =
      steps.map fun step => step.1.name := by
  induction steps with
  | nil => rfl
  | cons step steps ih =>
      rw [List.flatMap_cons, List.map_cons, ← ih]
      rfl

/-- Below a right-hand side with its states stands the stack of the path without them. -/
lemma unstack?_stackOf {lower upper : List (Symbol × ℕ)} (h : upper.map Prod.fst = p.rhs) :
    LrRule.unstack? (stackOf (lower ++ upper)) p = some (stackOf lower) := by
  have hlength : upper.length = p.rhs.length := by rw [← h, List.length_map]
  have hsize : 2 * p.rhs.length < (stackOf (lower ++ upper)).length := by
    rw [length_stackOf, List.length_append]
    omega
  have hbase : (stackOf (lower ++ upper)).length - 2 * p.rhs.length = (stackOf lower).length := by
    rw [length_stackOf, length_stackOf, List.length_append]
    omega
  have hsymbols : LrRule.everySecond ((stackOf (lower ++ upper)).drop (stackOf lower).length) =
      p.rhsNames := by
    calc LrRule.everySecond ((stackOf (lower ++ upper)).drop (stackOf lower).length)
        = LrRule.everySecond (upper.flatMap fun step => [step.1.name, stateName step.2]) := by
          rw [stackOf_append, List.drop_left]
      _ = upper.map fun step => step.1.name := everySecond_flatMap upper
      _ = (upper.map Prod.fst).map Symbol.name := by rw [List.map_map]; rfl
      _ = p.rhsNames := by rw [h, Production.rhsNames]
  rw [LrRule.unstack?, hbase, if_pos ⟨hsize, hsymbols⟩, stackOf_append, List.take_left]

end DeductiveParsing.Lr
