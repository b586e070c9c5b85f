/-
The automaton of dotted productions, and paths through it.

* `Automaton.IsSound`: the transitions found so far lead to the states behind their symbols;
* `length_transitions`: all states are visited, since there are no more states than sets of places;
* `HasPlace`, `Edge`, `Path`: the places of numbered states, and steps between them;
* `Path.exists_split`: a path to a state with a dotted production ends in steps over the symbols
  before the dot, which begin in a state with the dot in front.
-/
import DeductiveParsing.Proofs.Lr.States

namespace DeductiveParsing.Lr

open ContextFree

variable {productions : List Production} {s : State} {states : List State}

/-! ### Adding transitions -/

/-- What has been found when the transitions of a state over some symbols have been added: states
behind those known before, each of them once, and a transition for each of the symbols. -/
structure Found (productions : List Production) (s : State) (symbols : List Symbol)
    (states : List State) (found : List State × List (Symbol × ℕ)) : Prop where
  kept : states <+: found.1
  nodup : found.1.Nodup
  isClosure : ∀ t ∈ found.1, ∃ kernel, t = closure productions kernel
  symbols_eq : found.2.map Prod.fst = symbols
  target : ∀ e ∈ found.2, found.1[e.2]? = some (successor productions s e.1)

/-- One transition is added. -/
lemma Found.addTransition {symbols : List Symbol} {found : List State × List (Symbol × ℕ)}
    (h : Found productions s symbols states found) (a : Symbol) :
    Found productions s (symbols ++ [a]) states
      (addTransition found a (successor productions s a)) := by
  obtain ⟨fstates, edges⟩ := found
  rw [Lr.addTransition]
  split
  · rename_i q hq
    obtain ⟨hlt, hget, -⟩ := List.idxOf?_eq_some_iff.1 hq
    refine ⟨h.kept, h.nodup, h.isClosure, by simp [h.symbols_eq], fun e he => ?_⟩
    rcases List.mem_append.1 he with he | he
    · exact h.target e he
    · obtain rfl := List.mem_singleton.1 he
      exact List.getElem?_eq_some_iff.2 ⟨hlt, by simpa using hget⟩
  · rename_i hnone
    have hnew : successor productions s a ∉ fstates := List.idxOf?_eq_none_iff.1 hnone
    refine ⟨h.kept.trans (List.prefix_append _ _), ?_, fun t ht => ?_, by simp [h.symbols_eq],
      fun e he => ?_⟩
    · rw [← List.concat_eq_append]
      exact h.nodup.concat hnew
    · rcases List.mem_append.1 ht with ht | ht
      · exact h.isClosure t ht
      · exact ⟨_, List.mem_singleton.1 ht⟩
    · rcases List.mem_append.1 he with he | he
      · have htarget := h.target e he
        obtain ⟨hlt, -⟩ := List.getElem?_eq_some_iff.1 htarget
        rw [List.getElem?_append_left hlt]
        exact htarget
      · obtain rfl := List.mem_singleton.1 he
        simp

/-- The visit of a state finds a transition for each symbol behind a dot. -/
lemma Found.visit (hnodup : states.Nodup)
    (hclosure : ∀ t ∈ states, ∃ kernel, t = closure productions kernel) :
    Found productions s (nextSymbols productions s) states (visit productions states s) := by
  have hfold : ∀ (symbols before : List Symbol) (found : List State × List (Symbol × ℕ)),
      Found productions s before states found →
        Found productions s (before ++ symbols) states
          (symbols.foldl (fun found a => Lr.addTransition found a (successor productions s a))
            found) := by
    intro symbols
    induction symbols with
    | nil =>
        intro before found h
        simpa using h
    | cons a symbols ih =>
        intro before found h
        simpa using ih (before ++ [a]) _ (h.addTransition a)
  have hempty : Found productions s [] states (states, []) :=
    ⟨List.prefix_rfl, hnodup, hclosure, rfl, by simp⟩
  simpa [Lr.visit] using hfold (nextSymbols productions s) [] _ hempty

/-! ### Growing -/

/-- The states of an automaton under construction are states of different sets of places, beginning
with the first one. Not more of them are visited than there are, and each transition of those leads
to the state behind its symbol. -/
structure Automaton.IsSound (productions : List Production) (m : Automaton) : Prop where
  first : m.states[0]? = some (closure productions [⟨0, 0⟩])
  nodup : m.states.Nodup
  isClosure : ∀ t ∈ m.states, ∃ kernel, t = closure productions kernel
  length_le : m.transitions.length ≤ m.states.length
  row : ∀ (q : ℕ) (edges : List (Symbol × ℕ)), m.transitions[q]? = some edges →
    ∃ s, m.states[q]? = some s ∧ edges.map Prod.fst = nextSymbols productions s ∧
      ∀ e ∈ edges, m.states[e.2]? = some (successor productions s e.1)

namespace Automaton

variable {m : Automaton}

/-- A visit of the next state keeps an automaton sound. -/
lemma IsSound.visit (hm : m.IsSound productions) (hs : m.states[m.transitions.length]? = some s) :
    IsSound productions ⟨(Lr.visit productions m.states s).1,
      m.transitions ++ [(Lr.visit productions m.states s).2]⟩ := by
  have hfound : Found productions s (nextSymbols productions s) m.states
      (Lr.visit productions m.states s) := .visit hm.nodup hm.isClosure
  -- states keep their numbers
  have hkept : ∀ (q : ℕ) (t : State), m.states[q]? = some t →
      (Lr.visit productions m.states s).1[q]? = some t := by
    intro q t ht
    obtain ⟨hlt, -⟩ := List.getElem?_eq_some_iff.1 ht
    obtain ⟨behind, hbehind⟩ := hfound.kept
    rw [← hbehind, List.getElem?_append_left hlt]
    exact ht
  refine ⟨hkept _ _ hm.first, hfound.nodup, hfound.isClosure, ?_, fun q edges hq => ?_⟩
  · obtain ⟨hlt, -⟩ := List.getElem?_eq_some_iff.1 hs
    have hle := hfound.kept.length_le
    simp only [List.length_append, List.length_singleton]
    omega
  · rcases lt_or_ge q m.transitions.length with hlt | hge
    · rw [List.getElem?_append_left hlt] at hq
      obtain ⟨t, ht, hsymbols, htarget⟩ := hm.row q edges hq
      exact ⟨t, hkept _ _ ht, hsymbols, fun e he => hkept _ _ (htarget e he)⟩
    · obtain ⟨hlt, heq⟩ := List.getElem?_eq_some_iff.1 hq
      obtain rfl : q = m.transitions.length := by simp at hlt; omega
      obtain rfl : (Lr.visit productions m.states s).2 = edges := by simpa using heq
      exact ⟨s, hkept _ _ hs, hfound.symbols_eq, hfound.target⟩

/-- There are no more states than sets of places. -/
lemma IsSound.length_states_le (hm : m.IsSound productions) :
    m.states.length ≤ 2 ^ (allPlaces productions).length := by
  have hsubset : m.states ⊆ (allPlaces productions).sublists := by
    intro t ht
    obtain ⟨kernel, rfl⟩ := hm.isClosure t ht
    exact List.mem_sublists.2 (closure_sublist _ _)
  calc m.states.length ≤ (allPlaces productions).sublists.length :=
        (List.subperm_of_subset hm.nodup hsubset).length_le
    _ = 2 ^ (allPlaces productions).length := List.length_sublists _

/-- Growing keeps an automaton sound, and with enough fuel all its states are visited. -/
lemma IsSound.grow {fuel : ℕ} (hm : m.IsSound productions)
    (hfuel : 2 ^ (allPlaces productions).length ≤ m.transitions.length + fuel) :
    (Automaton.grow productions fuel m).IsSound productions ∧
      (Automaton.grow productions fuel m).transitions.length =
        (Automaton.grow productions fuel m).states.length := by
  induction fuel generalizing m with
  | zero =>
      have hstates := hm.length_states_le
      have hle := hm.length_le
      refine ⟨hm, ?_⟩
      show m.transitions.length = m.states.length
      omega
  | succ fuel ih =>
      rw [Automaton.grow]
      split
      · rename_i hnone
        have hge := List.getElem?_eq_none_iff.1 hnone
        exact ⟨hm, le_antisymm hm.length_le hge⟩
      · rename_i s hs
        refine ih (hm.visit hs) ?_
        simp only [List.length_append, List.length_singleton]
        omega

variable {g : Grammar}

lemma isSound_and_length (g : Grammar) :
    (ofGrammar g).IsSound (numbered g) ∧
      (ofGrammar g).transitions.length = (ofGrammar g).states.length := by
  have hfirst : IsSound (numbered g) ⟨[closure (numbered g) [⟨0, 0⟩]], []⟩ := by
    refine ⟨rfl, List.nodup_singleton _, fun t ht => ?_, Nat.zero_le _, fun q edges hq => ?_⟩
    · exact ⟨_, List.mem_singleton.1 ht⟩
    · simp at hq
  exact hfirst.grow (Nat.le_add_left _ _)

/-- The automaton of a grammar is sound. -/
theorem isSound_ofGrammar (g : Grammar) : (ofGrammar g).IsSound (numbered g) :=
  (isSound_and_length g).1

/-- All states of the automaton of a grammar are visited. -/
theorem length_transitions (g : Grammar) :
    (ofGrammar g).transitions.length = (ofGrammar g).states.length := (isSound_and_length g).2

end Automaton

/-! ### Places of numbered states -/

variable {g : Grammar} {p : Production} {a : Symbol} {i q r : ℕ} {x : Place}

lemma numbered_zero : (numbered g)[0]? = some ⟨augmentedName g, [.nonterminal g.start]⟩ := rfl

lemma mem_productions_of_numbered (hp : (numbered g)[i]? = some p) (hi : i ≠ 0) :
    p ∈ g.productions := by
  obtain ⟨k, rfl⟩ := Nat.exists_eq_succ_of_ne_zero hi
  rw [numbered, List.getElem?_cons_succ] at hp
  exact List.mem_of_getElem? hp

lemma exists_number (hp : p ∈ g.productions) : ∃ i, i ≠ 0 ∧ (numbered g)[i]? = some p := by
  obtain ⟨k, hk⟩ := List.mem_iff_getElem?.1 hp
  exact ⟨k + 1, Nat.succ_ne_zero k, by rw [numbered, List.getElem?_cons_succ, hk]⟩

/-- The symbol behind the dot begins what is left of the right-hand side. -/
lemma next?_of_drop_eq_cons {dot : ℕ} {rest : List Symbol} (hp : (numbered g)[i]? = some p)
    (h : p.rhs.drop dot = a :: rest) :
    (Place.mk i dot).next? (numbered g) = some a ∧ p.rhs.drop (dot + 1) = rest := by
  refine ⟨next?_eq_some.2 ⟨p, hp, ?_⟩, ?_⟩
  · rw [← List.head?_drop, h, List.head?_cons]
  · rw [← List.tail_drop, h, List.tail_cons]

/-- Whether the state of a number has a place. -/
def HasPlace (g : Grammar) (q : ℕ) (x : Place) : Prop :=
  ∃ s, (Automaton.ofGrammar g).states[q]? = some s ∧ x ∈ s

/-- Whether the automaton leads from one state to another one over a symbol. -/
def Edge (g : Grammar) (q : ℕ) (a : Symbol) (r : ℕ) : Prop :=
  ∃ edges, (Automaton.ofGrammar g).transitions[q]? = some edges ∧ (a, r) ∈ edges

lemma hasPlace_first : HasPlace g 0 ⟨0, 0⟩ := by
  refine ⟨_, (Automaton.isSound_ofGrammar g).first, mem_closure.2 ⟨_, numbered_zero, ?_⟩⟩
  exact ⟨Nat.zero_le _, Or.inl (List.mem_singleton_self _)⟩

/-- All dots of the first state are in front. -/
lemma dot_eq_zero_of_hasPlace_first (h : HasPlace g 0 x) : x.dot = 0 := by
  obtain ⟨s, hs, hx⟩ := h
  obtain rfl := Option.some.inj ((Automaton.isSound_ofGrammar g).first.symm.trans hs)
  obtain ⟨p, -, -, hmem | ⟨hdot, -⟩⟩ := mem_closure.1 hx
  · rw [List.mem_singleton.1 hmem]
  · exact hdot

/-- With a dot before a name a state has all productions of that name with the dot in front. -/
lemma HasPlace.enter (h : HasPlace g q x) (hp : (numbered g)[i]? = some p) (hi : i ≠ 0)
    (hnext : x.next? (numbered g) = some (.nonterminal p.lhs)) : HasPlace g q ⟨i, 0⟩ := by
  obtain ⟨s, hs, hx⟩ := h
  obtain ⟨kernel, rfl⟩ := (Automaton.isSound_ofGrammar g).isClosure s (List.mem_of_getElem? hs)
  exact ⟨_, hs, closure_enters hx hnext hp hi⟩

/-- An edge leads over each symbol behind a dot. -/
lemma HasPlace.exists_edge (h : HasPlace g q x) (hnext : x.next? (numbered g) = some a) :
    ∃ r, Edge g q a r := by
  obtain ⟨s, hs, hx⟩ := h
  obtain ⟨hlt, -⟩ := List.getElem?_eq_some_iff.1 hs
  rw [← Automaton.length_transitions g] at hlt
  obtain ⟨edges, hedges⟩ : ∃ edges, (Automaton.ofGrammar g).transitions[q]? = some edges :=
    ⟨_, List.getElem?_eq_getElem hlt⟩
  obtain ⟨t, ht, hsymbols, -⟩ := (Automaton.isSound_ofGrammar g).row q edges hedges
  obtain rfl := Option.some.inj (hs.symm.trans ht)
  have ha : a ∈ edges.map Prod.fst := hsymbols ▸ mem_nextSymbols.2 ⟨x, hx, hnext⟩
  obtain ⟨⟨b, r⟩, hmem, rfl⟩ := List.mem_map.1 ha
  exact ⟨r, edges, hedges, hmem⟩

/-- The states at both ends of an edge. -/
lemma Edge.exists_states (h : Edge g q a r) :
    ∃ s, (Automaton.ofGrammar g).states[q]? = some s ∧
      (Automaton.ofGrammar g).states[r]? = some (successor (numbered g) s a) := by
  obtain ⟨edges, hedges, hmem⟩ := h
  obtain ⟨s, hs, -, htarget⟩ := (Automaton.isSound_ofGrammar g).row q edges hedges
  exact ⟨s, hs, htarget _ hmem⟩

/-- Behind an edge the dots have moved over its symbol. -/
lemma Edge.hasPlace_iff (h : Edge g q a r) {dot : ℕ} :
    HasPlace g r ⟨i, dot + 1⟩ ↔
      HasPlace g q ⟨i, dot⟩ ∧ (Place.mk i dot).next? (numbered g) = some a := by
  obtain ⟨s, hs, ht⟩ := h.exists_states
  constructor
  · rintro ⟨t, ht', hx⟩
    obtain rfl := Option.some.inj (ht.symm.trans ht')
    obtain ⟨hmem, hnext⟩ := mem_successor.1 hx
    exact ⟨⟨s, hs, hmem⟩, hnext⟩
  · rintro ⟨⟨s', hs', hx⟩, hnext⟩
    obtain rfl := Option.some.inj (hs.symm.trans hs')
    exact ⟨_, ht, mem_successor.2 ⟨hx, hnext⟩⟩

/-- Only one edge leads from a state over a symbol, since no state has two numbers. -/
lemma Edge.unique {r' : ℕ} (h : Edge g q a r) (h' : Edge g q a r') : r = r' := by
  obtain ⟨s, hs, ht⟩ := h.exists_states
  obtain ⟨s', hs', ht'⟩ := h'.exists_states
  obtain rfl := Option.some.inj (hs.symm.trans hs')
  obtain ⟨hlt, -⟩ := List.getElem?_eq_some_iff.1 ht
  exact List.getElem?_inj hlt (Automaton.isSound_ofGrammar g).nodup |>.1 (ht.trans ht'.symm)

/-! ### Paths -/

/-- The steps of a path from the first state, each with its symbol and the state it leads to. -/
inductive Path (g : Grammar) : List (Symbol × ℕ) → ℕ → Prop where
  | nil : Path g [] 0
  | snoc {steps : List (Symbol × ℕ)} {q r : ℕ} {a : Symbol} (h : Path g steps q)
      (hedge : Edge g q a r) : Path g (steps ++ [(a, r)]) r

/-- The only step of a path is an edge from the first state. -/
lemma Path.edge_of_singleton (h : Path g [(a, r)] q) : q = r ∧ Edge g 0 a r := by
  generalize hsteps : [(a, r)] = steps at h
  cases h with
  | nil => cases hsteps
  | @snoc steps q' _ b h hedge =>
      obtain ⟨hnil, hlast⟩ := List.append_inj' (hsteps.symm.trans (List.nil_append _).symm) rfl
      subst hnil
      obtain ⟨rfl, rfl⟩ := Prod.mk.inj (List.cons.inj hlast).1
      generalize hsteps' : ([] : List (Symbol × ℕ)) = steps at h
      cases h with
      | nil => exact ⟨rfl, hedge⟩
      | snoc => exact absurd hsteps' (by simp)

/-- A path to a state with a dotted production ends in steps over the symbols before the dot. These
begin in a state that has the production with the dot in front. -/
theorem Path.exists_split {steps : List (Symbol × ℕ)} {dot : ℕ} (h : Path g steps q)
    (hplace : HasPlace g q ⟨i, dot⟩) (hp : (numbered g)[i]? = some p) :
    ∃ lower upper r, steps = lower ++ upper ∧ upper.map Prod.fst = p.rhs.take dot ∧
      Path g lower r ∧ HasPlace g r ⟨i, 0⟩ := by
  induction dot generalizing steps q with
  | zero => exact ⟨steps, [], q, by simp, by simp, h, hplace⟩
  | succ dot ih =>
      cases h with
      | nil => exact absurd (dot_eq_zero_of_hasPlace_first hplace) (Nat.succ_ne_zero dot)
      | @snoc steps q' _ a h hedge =>
          obtain ⟨hbefore, hnext⟩ := hedge.hasPlace_iff.1 hplace
          obtain ⟨lower, upper, r', rfl, hupper, hlower, hfront⟩ := ih h hbefore
          refine ⟨lower, upper ++ [(a, q)], r', by simp, ?_, hlower, hfront⟩
          obtain ⟨p', hp', hrhs⟩ := next?_eq_some.1 hnext
          obtain rfl : p = p' := Option.some.inj (hp.symm.trans hp')
          rw [List.map_append, hupper, List.take_add_one, hrhs]
          rfl

end DeductiveParsing.Lr
