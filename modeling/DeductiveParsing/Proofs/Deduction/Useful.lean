/-
Which entries are useful.

* `IsMarking`: what holds while positions are marked, in whatever order the waiting ones are taken
  up;
* `IsMarking.marked_iff`: when none waits any more, the marked positions are those that are reached;
* `mem_usefulPositions`: the useful positions are those that are reached from the goals;
* `markLoop`, `exists_markLoop`: a loop over a stack that gives its last position first ends with
  the same positions;
* `run_useful_exact`: the useful entries of a run are those that goals rest on, and the useful trace
  consists of their rows.
-/
import DeductiveParsing.Deduction.Trace
import DeductiveParsing.Proofs.Deduction.Forests
import DeductiveParsing.Proofs.Deduction.Records

namespace DeductiveParsing

open Relation

variable {W : Type}

/-- Whether an entry has a recorded derivation with an antecedent at another position. -/
def Chart.RestsOn (c : Chart W) (i j : ℕ) : Prop :=
  ∃ e d, c.entries[i]? = some e ∧ d ∈ e.derivations ∧ j ∈ d.antecedents

namespace Deduction

/-! ### Marking -/

section Marking

variable {next : ℕ → List ℕ} {start stack stack' rest : List ℕ} {marked marked' : ℕ → Prop} {i : ℕ}

/-- What holds while positions are marked: the first ones and those to which marked ones lead are
marked or wait on the stack, and nothing is there that is not reached. -/
structure IsMarking (next : ℕ → List ℕ) (start : List ℕ) (marked : ℕ → Prop) (stack : List ℕ) :
    Prop where
  start_found : ∀ i ∈ start, marked i ∨ i ∈ stack
  next_found : ∀ i, marked i → ∀ j ∈ next i, marked j ∨ j ∈ stack
  reached : ∀ i, marked i ∨ i ∈ stack → ∃ g ∈ start, ReflTransGen (fun j k => k ∈ next j) g i

namespace IsMarking

/-- At first nothing is marked and the first positions wait. -/
lemma init (hnone : ∀ i, ¬marked i) : IsMarking next start marked start where
  start_found _ hi := Or.inr hi
  next_found i hi := absurd hi (hnone i)
  reached i hi := ⟨i, hi.resolve_left (hnone i), .refl⟩

/-- A position that is marked already is only taken off. -/
lemma skip (h : IsMarking next start marked stack) (hstack : ∀ j, j ∈ stack ↔ j = i ∨ j ∈ rest)
    (hi : marked i) : IsMarking next start marked rest := by
  have hfound : ∀ j, marked j ∨ j ∈ stack → marked j ∨ j ∈ rest := by
    rintro j (hj | hj)
    · exact Or.inl hj
    · rcases (hstack j).1 hj with rfl | hj
      · exact Or.inl hi
      · exact Or.inr hj
  exact ⟨fun j hj => hfound j (h.start_found j hj),
    fun j hj k hk => hfound k (h.next_found j hj k hk),
    fun j hj => h.reached j (hj.imp_right fun hj => (hstack j).2 (Or.inr hj))⟩

/-- Another one gets a mark, and the positions to which it leads are put on the stack. -/
lemma mark (h : IsMarking next start marked stack) (hstack : ∀ j, j ∈ stack ↔ j = i ∨ j ∈ rest)
    (hmarked : ∀ j, marked' j ↔ marked j ∨ j = i)
    (hstack' : ∀ j, j ∈ stack' ↔ j ∈ next i ∨ j ∈ rest) :
    IsMarking next start marked' stack' := by
  have hfound : ∀ j, marked j ∨ j ∈ stack → marked' j ∨ j ∈ stack' := by
    rintro j (hj | hj)
    · exact Or.inl ((hmarked j).2 (Or.inl hj))
    · rcases (hstack j).1 hj with rfl | hj
      · exact Or.inl ((hmarked j).2 (Or.inr rfl))
      · exact Or.inr ((hstack' j).2 (Or.inr hj))
  obtain ⟨g, hg, hreached⟩ := h.reached i (Or.inr ((hstack i).2 (Or.inl rfl)))
  refine ⟨fun j hj => hfound j (h.start_found j hj), fun j hj k hk => ?_, fun j hj => ?_⟩
  · rcases (hmarked j).1 hj with hj | rfl
    · exact hfound k (h.next_found j hj k hk)
    · exact Or.inr ((hstack' k).2 (Or.inl hk))
  · rcases hj with hj | hj
    · rcases (hmarked j).1 hj with hj | rfl
      · exact h.reached j (Or.inl hj)
      · exact ⟨g, hg, hreached⟩
    · rcases (hstack' j).1 hj with hj | hj
      · exact ⟨g, hg, hreached.tail hj⟩
      · exact h.reached j (Or.inr ((hstack j).2 (Or.inr hj)))

/-- When nothing waits any more, the marked positions are those that are reached. -/
lemma marked_iff (h : IsMarking next start marked []) :
    marked i ↔ ∃ g ∈ start, ReflTransGen (fun j k => k ∈ next j) g i := by
  constructor
  · exact fun hi => h.reached i (Or.inl hi)
  · rintro ⟨g, hg, hreached⟩
    induction hreached with
    | refl => exact (h.start_found g hg).resolve_right List.not_mem_nil
    | tail _ hnext ih => exact (h.next_found _ ih _ hnext).resolve_right List.not_mem_nil

end IsMarking

/-- Following the waiting positions first to last leaves none, if all of them have a mark or can get
one. -/
lemma isMarking_reach {marks : Array Bool} (hnext : ∀ i, ∀ j ∈ next i, j < marks.size)
    (hstack : ∀ i ∈ stack, i < marks.size)
    (h : IsMarking next start (fun i => marks[i]? = some true) stack) :
    IsMarking next start (fun i => (reach next stack marks)[i]? = some true) [] := by
  induction stack, marks using reach.induct next with
  | case1 marks =>
      rw [reach]
      exact h
  | case2 marks i rest hi ih =>
      have hlt : i < marks.size := hstack i List.mem_cons_self
      rw [reach]
      split
      case h_1 =>
        refine ih (by simpa using hnext) (fun j hj => ?_)
          (h.mark (fun j => List.mem_cons) (fun j => ?_) fun j => List.mem_append)
        · rw [Array.size_setIfInBounds]
          rcases List.mem_append.1 hj with hj | hj
          · exact hnext i j hj
          · exact hstack j (List.mem_cons_of_mem _ hj)
        · rw [Array.getElem?_setIfInBounds]
          by_cases hij : i = j
          · simp [hij, hij ▸ hlt]
          · simp [hij, Ne.symm hij]
      case h_2 hother => exact absurd hi hother
  | case3 marks i rest hother ih =>
      have hlt : i < marks.size := hstack i List.mem_cons_self
      have hi : marks[i]? = some true := by
        cases hmark : marks[i] with
        | true => rw [Array.getElem?_eq_getElem hlt, hmark]
        | false => exact absurd (by rw [Array.getElem?_eq_getElem hlt, hmark]) hother
      rw [reach]
      split
      case h_1 hfalse => exact absurd hfalse hother
      case h_2 =>
        exact ih hnext (fun j hj => hstack j (List.mem_cons_of_mem _ hj))
          (h.skip (fun j => List.mem_cons) hi)

end Marking

/-! ### Useful positions -/

variable {c : Chart W} {goals : List ℕ} {i j : ℕ}

lemma mem_antecedentsOf : j ∈ antecedentsOf c i ↔ c.RestsOn i j := by
  rw [antecedentsOf, Chart.RestsOn]
  cases he : c.entries[i]? with
  | none => simp
  | some e => simp

lemma antecedentsOf_iff_restsOn : (fun j k => k ∈ antecedentsOf c j) = c.RestsOn :=
  funext₂ fun _ _ => propext mem_antecedentsOf

/-- Whether the derivations of a chart have antecedents in the chart only. -/
def IsGrounded (c : Chart W) : Prop := ∀ i j, c.RestsOn i j → j < c.size

lemma IsGrounded.lt_size (hc : IsGrounded c) (hi : i < c.size)
    (h : ReflTransGen c.RestsOn i j) : j < c.size := by
  cases h with
  | refl => exact hi
  | tail _ h => exact hc _ _ h

/-- The useful positions are those that are reached from the goals. -/
lemma mem_usefulPositions (hc : IsGrounded c) (hgoals : ∀ g ∈ goals, g < c.size) :
    i ∈ usefulPositions c goals ↔ ∃ g ∈ goals, ReflTransGen c.RestsOn g i := by
  have hsize : (Array.replicate c.size false).size = c.size := Array.size_replicate
  have hnone : ∀ i : ℕ, ¬(Array.replicate c.size false)[i]? = some true := by
    intro i
    simp [Array.getElem?_replicate]
  have hmarking : IsMarking (antecedentsOf c) goals _ [] :=
    isMarking_reach (fun i j hj => hsize.symm ▸ hc i j (mem_antecedentsOf.1 hj))
      (fun g hg => hsize.symm ▸ hgoals g hg) (.init hnone)
  rw [usefulPositions, List.mem_filter, beq_iff_eq, List.mem_range, hmarking.marked_iff,
    antecedentsOf_iff_restsOn]
  refine and_iff_right_of_imp ?_
  rintro ⟨g, hg, h⟩
  exact hc.lt_size (hgoals g hg) h

/-! ### The marking as a loop -/

/-- The marking as a loop. The last position on the stack is taken off, and if it has no mark yet,
it gets one and the antecedents of its derivations are put on the stack. At most `fuel` positions
are taken off, and the loop fails at a position without an entry. -/
def markLoop (c : Chart W) : ℕ → Finset ℕ → List ℕ → Option (Finset ℕ)
  | 0, marked, stack => if stack = [] then some marked else none
  | fuel + 1, marked, stack =>
    match stack.getLast? with
    | none => some marked
    | some i =>
      match c.entries[i]? with
      | none => none
      | some e =>
        if i ∈ marked then markLoop c fuel marked stack.dropLast
        else markLoop c fuel (insert i marked)
          (stack.dropLast ++ e.derivations.flatMap Derivation.antecedents)

/-- How many positions the loop takes off: those on the stack, and the antecedents of all entries
that have no mark. -/
def loopCost (c : Chart W) (marked : Finset ℕ) (stack : List ℕ) : ℕ :=
  stack.length + ∑ i ∈ Finset.range c.size \ marked, (antecedentsOf c i).length

lemma loopCost_concat_of_mem {marked : Finset ℕ} {rest : List ℕ} :
    loopCost c marked (rest ++ [i]) = loopCost c marked rest + 1 := by
  rw [loopCost, loopCost, List.length_append, List.length_singleton]
  omega

/-- What the antecedents of a new mark cost was set aside for it. -/
lemma loopCost_insert {marked : Finset ℕ} {rest : List ℕ} (hi : i < c.size) (hnew : i ∉ marked) :
    loopCost c (insert i marked) (rest ++ antecedentsOf c i) = loopCost c marked rest := by
  have hmem : i ∈ Finset.range c.size \ marked := Finset.mem_sdiff.2 ⟨Finset.mem_range.2 hi, hnew⟩
  have hsum := Finset.add_sum_erase _ (fun j => (antecedentsOf c j).length) hmem
  rw [loopCost, loopCost, List.length_append, Finset.sdiff_insert, ← hsum]
  omega

lemma antecedentsOf_eq {e : Entry W} (he : c.entries[i]? = some e) :
    antecedentsOf c i = e.derivations.flatMap Derivation.antecedents := by
  rw [antecedentsOf, he]

/-- The loop ends after as many positions as it costs, and then no position waits. -/
lemma exists_markLoop {start stack : List ℕ} {marked : Finset ℕ} {fuel : ℕ} (hc : IsGrounded c)
    (hstack : ∀ i ∈ stack, i < c.size) (hfuel : loopCost c marked stack = fuel)
    (h : IsMarking (antecedentsOf c) start (· ∈ marked) stack) :
    ∃ final, markLoop c fuel marked stack = some final ∧
      IsMarking (antecedentsOf c) start (· ∈ final) [] := by
  induction fuel generalizing marked stack with
  | zero =>
      obtain rfl : stack = [] := by
        rw [loopCost] at hfuel
        exact List.length_eq_zero_iff.1 (by omega)
      exact ⟨marked, by rw [markLoop, if_pos rfl], h⟩
  | succ fuel ih =>
      rcases List.eq_nil_or_concat' stack with rfl | ⟨rest, i, rfl⟩
      · exact ⟨marked, rfl, h⟩
      have hrest : ∀ j ∈ rest, j < c.size := fun j hj => hstack j (by simp [hj])
      have hi : i < c.size := hstack i (by simp)
      have he : c.entries[i]? = some c.entries[i] := Array.getElem?_eq_getElem hi
      have hmem : ∀ j, j ∈ rest ++ [i] ↔ j = i ∨ j ∈ rest := fun j => by simp [or_comm]
      rw [loopCost_concat_of_mem, Nat.succ_inj] at hfuel
      simp only [markLoop, List.getLast?_concat, he, List.dropLast_concat]
      by_cases hi' : i ∈ marked
      · rw [if_pos hi']
        exact ih hrest hfuel (h.skip hmem hi')
      · rw [if_neg hi', ← antecedentsOf_eq he]
        refine ih (fun j hj => ?_) ((loopCost_insert hi hi').trans hfuel)
          (h.mark hmem (fun j => ?_) fun j => ?_)
        · rcases List.mem_append.1 hj with hj | hj
          · exact hrest j hj
          · exact hc i j (mem_antecedentsOf.1 hj)
        · rw [Finset.mem_insert, or_comm]
        · rw [List.mem_append, or_comm]

/-! ### Useful traces -/

variable [Weight W] {settings : Settings} {schema : Schema W} {fuel : ℕ} {o : Outcome W}

/-- The derivations that a run records have antecedents in its chart. -/
lemma isGrounded_of_run (h : run settings schema fuel = .ok o) : IsGrounded o.chart := by
  obtain ⟨t, ht, rfl⟩ := run_eq_ok h
  have hrecords := ((invariant_records settings schema).of_reaches (reaches_of_finalState ht)).1.2
  rintro i j ⟨e, d, he, hd, hj⟩
  exact (hrecords i e he).lt_size d hd j hj

/-- All elements of a list, taken by their places. -/
lemma filterMap_range_getElem? {α : Type} (l : List α) :
    (List.range l.length).filterMap (fun i => l[i]?) = l := by
  induction l using List.reverseRecOn with
  | nil => rfl
  | append_singleton l a ih =>
      rw [List.length_append, List.length_singleton, List.range_succ, List.filterMap_append]
      refine congrArg₂ (· ++ ·) ((List.filterMap_congr fun i hi => ?_).trans ih) (by simp)
      exact List.getElem?_append_left (List.mem_range.1 hi)

lemma getElem?_trace (o : Outcome W) (i : ℕ) :
    (trace o)[i]? = o.chart.entries[i]?.map fun e => rowOf e i := by
  rw [trace, List.getElem?_map, List.getElem?_zipIdx, Array.getElem?_toList, Option.map_map]
  exact congrArg (fun f => o.chart.entries[i]?.map f) (funext fun e => by simp)

lemma length_trace (o : Outcome W) : (trace o).length = o.chart.size := by
  simp [trace, Chart.size]

/-- A row has the number of its place, counted from one. -/
lemma position_of_getElem?_trace {row : TraceRow} (h : (trace o)[i]? = some row) :
    row.position = i + 1 := by
  rw [getElem?_trace] at h
  obtain ⟨e, -, rfl⟩ := Option.map_eq_some_iff.1 h
  rfl

lemma map_position_filterMap_trace {l : List ℕ} (hl : ∀ i ∈ l, i < o.chart.size) :
    (l.filterMap fun i => (trace o)[i]?).map TraceRow.position = l.map (· + 1) := by
  rw [List.map_filterMap, ← List.filterMap_eq_map]
  refine List.filterMap_congr fun i hi => ?_
  have hlt : i < (trace o).length := (hl i hi).trans_eq (length_trace o).symm
  have hrow : (trace o)[i]? = some (trace o)[i] := List.getElem?_eq_getElem hlt
  rw [hrow]
  exact congrArg some (position_of_getElem?_trace hrow)

/-- The rows of the useful entries are those at the useful positions. -/
lemma usefulTrace_eq_filterMap {p : ℕ → Bool}
    (huseful : o.useful = (List.range o.chart.size).filter p) :
    usefulTrace o = o.useful.filterMap fun i => (trace o)[i]? := by
  have hrow : ∀ i ∈ List.range o.chart.size,
      ((trace o)[i]?.filter fun row => o.useful.contains (row.position - 1)) =
        if p i = true then (trace o)[i]? else none := by
    intro i hi
    cases hrow : (trace o)[i]? with
    | none => simp
    | some row =>
        have hmem : o.useful.contains (row.position - 1) = p i := by
          rw [position_of_getElem?_trace hrow, Nat.add_sub_cancel, huseful, Bool.eq_iff_iff,
            List.contains_iff_mem, List.mem_filter]
          exact and_iff_right hi
        rw [Option.filter_some, hmem]
  calc usefulTrace o
      = ((List.range o.chart.size).filterMap fun i => (trace o)[i]?).filter
          fun row => o.useful.contains (row.position - 1) := by
        rw [usefulTrace, ← length_trace, filterMap_range_getElem?]
    _ = (List.range o.chart.size).filterMap fun i =>
          (trace o)[i]?.filter fun row => o.useful.contains (row.position - 1) :=
        List.filter_filterMap
    _ = (List.range o.chart.size).filterMap fun i => if p i = true then (trace o)[i]? else none :=
        List.filterMap_congr hrow
    _ = o.useful.filterMap fun i => (trace o)[i]? := by rw [huseful, List.filterMap_filter]

/-- For every schema, policy and run that ends: the goals are the positions of the items with the
forms of goals, and the useful positions are exactly those that are reached from the goals through
antecedents of recorded derivations, whether or not derivations lead back to the entries that they
stand for. The marking with a stack ends with them. The useful trace consists of the rows of the
trace at these positions, which keep their numbers, and is empty exactly if no goal was derived. -/
theorem run_useful_exact (h : run settings schema fuel = .ok o) :
    (∀ i, i ∈ o.goals ↔ ∃ x ∈ schema.goals, o.chart.form? i = some x.form) ∧
    markLoop o.chart (loopCost o.chart ∅ o.goals) ∅ o.goals = some o.useful.toFinset ∧
    (∀ i, i ∈ o.useful ↔ ∃ g ∈ o.goals, ReflTransGen o.chart.RestsOn g i) ∧
    o.useful.Pairwise (· < ·) ∧
    usefulTrace o = (o.useful.filterMap fun i => (trace o)[i]?) ∧
    (usefulTrace o).Sublist (trace o) ∧
    (usefulTrace o).map TraceRow.position = o.useful.map (· + 1) ∧
    (trace o).map TraceRow.position = (List.range o.chart.size).map (· + 1) ∧
    (usefulTrace o = [] ↔ o.isDerivable = false) := by
  have hgrounded := isGrounded_of_run h
  obtain ⟨t, ht, rfl⟩ := run_eq_ok h
  have hindexed := (consistent_of_finalState ht).1.indexed
  set o := Outcome.ofChart schema.goals t.chart
  have hgoals : ∀ i, i ∈ o.goals ↔ ∃ x ∈ schema.goals, o.chart.form? i = some x.form := by
    intro i
    rw [mem_goals_ofChart hindexed]
    constructor
    · rintro ⟨x, hx, y, hy, hform⟩
      exact ⟨y, hy, Option.map_eq_some_iff.2 ⟨x, hx, hform.symm⟩⟩
    · rintro ⟨y, hy, hform⟩
      obtain ⟨x, hx, hform⟩ := Option.map_eq_some_iff.1 hform
      exact ⟨x, hx, y, hy, hform.symm⟩
  have hlt : ∀ g ∈ o.goals, g < o.chart.size := fun g hg => by
    obtain ⟨x, -, hx⟩ := (hgoals g).1 hg
    exact Chart.lt_size_of_form? hx
  have huseful : ∀ i, i ∈ o.useful ↔ ∃ g ∈ o.goals, ReflTransGen o.chart.RestsOn g i :=
    fun i => mem_usefulPositions hgrounded hlt
  have hrows : usefulTrace o = o.useful.filterMap fun i => (trace o)[i]? :=
    usefulTrace_eq_filterMap rfl
  have hpositions : (usefulTrace o).map TraceRow.position = o.useful.map (· + 1) := by
    rw [hrows]
    exact map_position_filterMap_trace fun i hi => List.mem_range.1 (List.mem_filter.1 hi).1
  refine ⟨hgoals, ?_, huseful, List.pairwise_lt_range.filter _, hrows, List.filter_sublist,
    hpositions, ?_, ?_⟩
  · obtain ⟨final, hfinal, hmarking⟩ :=
      exists_markLoop hgrounded hlt rfl (.init fun i => Finset.notMem_empty i)
    rw [hfinal, Option.some.injEq]
    ext i
    rw [hmarking.marked_iff, antecedentsOf_iff_restsOn, List.mem_toFinset, huseful]
  · rw [← filterMap_range_getElem? (trace o), length_trace]
    exact map_position_filterMap_trace fun i hi => List.mem_range.1 hi
  · have hempty : usefulTrace o = [] ↔ o.useful = [] := by
      rw [← List.map_eq_nil_iff (f := TraceRow.position), hpositions, List.map_eq_nil_iff]
    rw [hempty, Outcome.isDerivable, Bool.not_eq_false', List.isEmpty_iff]
    constructor
    · intro hnone
      refine List.eq_nil_iff_forall_not_mem.2 fun g hg => ?_
      exact List.not_mem_nil (hnone ▸ (huseful g).2 ⟨g, hg, .refl⟩)
    · intro hnone
      refine List.eq_nil_iff_forall_not_mem.2 fun i hi => ?_
      obtain ⟨g, hg, -⟩ := (huseful i).1 hi
      exact List.not_mem_nil (hnone ▸ hg)

end Deduction

/-! ### A loop beside a span that is not needed -/

/-- A schema with a span that no rule takes up, a span of `A`, and rules that make an `S` out of an
`A` and an `A` out of an `S`. -/
def Schema.loopedSpans : Schema W :=
  .make [⟨"scan", [CykRule.item "X" 0 1 [], CykRule.item "A" 0 1 []]⟩]
    [.cyk (.unary ⟨"S", [.nonterminal "A"]⟩), .cyk (.unary ⟨"A", [.nonterminal "S"]⟩)]
    [CykRule.item "S" 0 1 []]

/-- The run ends with three entries, two of which rest on each other and are useful, and the span
that is not needed has no row in the useful trace. -/
theorem Deduction.exists_run_useful_exact_loop :
    ∃ o, run ⟨.accumulate, none⟩ (Schema.loopedSpans : Schema Float) 5 = .ok o ∧
      o.chart.size = 3 ∧ o.goals = [2] ∧ o.useful = [1, 2] ∧
      ReflTransGen o.chart.RestsOn 2 1 ∧ ¬ReflTransGen o.chart.RestsOn 2 0 ∧
      markLoop o.chart (loopCost o.chart ∅ o.goals) ∅ o.goals = some {1, 2} ∧
      (usefulTrace o).map TraceRow.position = [2, 3] ∧ usefulTrace o ≠ [] := by
  have hvalues : (run ⟨.accumulate, none⟩ (Schema.loopedSpans : Schema Float) 5).toOption.map
      (fun o => (o.chart.size, o.goals, o.useful)) = some (3, [2], [1, 2]) := by cbv
  cases hrun : run ⟨.accumulate, none⟩ (Schema.loopedSpans : Schema Float) 5 with
  | error failure =>
      rw [hrun] at hvalues
      cases hvalues
  | ok o =>
      rw [hrun] at hvalues
      have hvalues := Option.some.inj hvalues
      obtain ⟨hsize, hvalues⟩ := Prod.mk.inj hvalues
      obtain ⟨hgoals, huseful⟩ := Prod.mk.inj hvalues
      obtain ⟨-, hloop, hreached, -, -, -, hpositions, -, hempty⟩ := run_useful_exact hrun
      have hfrom : ∀ i, i ∈ [1, 2] ↔ ReflTransGen o.chart.RestsOn 2 i := by
        intro i
        rw [← huseful, hreached, hgoals]
        simp
      refine ⟨o, rfl, hsize, hgoals, huseful, (hfrom 1).1 (by simp), fun h => ?_, ?_, ?_, ?_⟩
      · have := (hfrom 0).2 h
        simp at this
      · rw [hloop, huseful]
        rfl
      · rw [hpositions, huseful]
        rfl
      · rw [Ne, hempty, Outcome.isDerivable, hgoals]
        decide

end DeductiveParsing
