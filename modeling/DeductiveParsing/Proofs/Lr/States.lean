/-
States of dotted productions.

* `closure_sublist`: a state is a part of the list of all places;
* `mem_closure`: it holds the places that it is the state of, and places with the dot in front;
* `closure_enters`: with a dot before a name it holds all productions of that name;
* `mem_successor`: behind a symbol the dots have moved over it.
-/
import DeductiveParsing.Lr.Automaton
import DeductiveParsing.Proofs.Choice
import DeductiveParsing.Proofs.Closure.Reachable

namespace DeductiveParsing.Lr

open ContextFree Relation

variable {productions : List Production} {kernel : List Place} {s : State} {x : Place}

/-! ### Places -/

lemma next?_eq_some {a : Symbol} :
    x.next? productions = some a ↔
      ∃ p, productions[x.production]? = some p ∧ p.rhs[x.dot]? = some a := by
  rw [Place.next?]
  exact Option.bind_eq_some_iff

/-! ### Names that are entered -/

lemma mem_frontEdges {a b : String} :
    (a, b) ∈ frontEdges productions ↔
      ∃ p ∈ productions, p.lhs = a ∧ p.rhs[0]? = some (.nonterminal b) := by
  rw [frontEdges, List.mem_filterMap]
  refine exists_congr fun p => and_congr_right fun _ => ?_
  rcases p with ⟨lhs, _ | ⟨c | c, rest⟩⟩ <;> simp

/-- A name is entered before which a dot of the kernel stands, and with it the names with which its
productions begin. -/
lemma mem_enteredNames {b : String} :
    b ∈ enteredNames productions kernel ↔
      ∃ x ∈ kernel, ∃ a, x.next? productions = some (.nonterminal a) ∧
        ReflTransGen (fun c d => (c, d) ∈ frontEdges productions) a b := by
  rw [enteredNames, mem_reachable_iff]
  constructor
  · rintro ⟨a, ha, h⟩
    obtain ⟨x, hx, hnext⟩ := List.mem_filterMap.1 ha
    refine ⟨x, hx, a, ?_, h⟩
    split at hnext
    · rename_i heq
      rw [heq, Option.some.inj hnext]
    · cases hnext
  · rintro ⟨x, hx, a, hnext, h⟩
    exact ⟨a, List.mem_filterMap.2 ⟨x, hx, by rw [hnext]⟩, h⟩

lemma mem_enteredNames_of_next? {b : String} (hx : x ∈ kernel)
    (h : x.next? productions = some (.nonterminal b)) :
    b ∈ enteredNames productions kernel := mem_enteredNames.2 ⟨x, hx, b, h, .refl⟩

lemma mem_enteredNames_of_front {p : Production} {b : String} (hp : p ∈ productions)
    (hlhs : p.lhs ∈ enteredNames productions kernel) (h : p.rhs[0]? = some (.nonterminal b)) :
    b ∈ enteredNames productions kernel := by
  obtain ⟨x, hx, a, hnext, hreach⟩ := mem_enteredNames.1 hlhs
  exact mem_enteredNames.2 ⟨x, hx, a, hnext, hreach.tail (mem_frontEdges.2 ⟨p, hp, rfl, h⟩)⟩

/-! ### The state of a set of places -/

lemma closure_sublist (productions : List Production) (kernel : List Place) :
    (closure productions kernel).Sublist (allPlaces productions) :=
  List.Sublist.flatMap_right _ fun _ _ => List.filter_sublist

lemma mem_closure :
    x ∈ closure productions kernel ↔
      ∃ p, productions[x.production]? = some p ∧ x.dot ≤ p.rhs.length ∧
        (x ∈ kernel ∨
          x.dot = 0 ∧ x.production ≠ 0 ∧ p.lhs ∈ enteredNames productions kernel) := by
  obtain ⟨i, dot⟩ := x
  simp only [closure, List.mem_flatMap, List.mem_filter, List.mem_map, List.mem_range, Prod.exists,
    List.mk_mem_zipIdx_iff_getElem?, Bool.or_eq_true, Bool.and_eq_true, List.contains_iff_mem,
    beq_iff_eq, bne_iff_ne]
  constructor
  · rintro ⟨p, j, hp, ⟨d, hd, heq⟩, h⟩
    obtain ⟨rfl, rfl⟩ := Place.mk.inj heq
    refine ⟨p, hp, by omega, ?_⟩
    simpa [and_assoc] using h
  · rintro ⟨p, hp, hdot, h⟩
    refine ⟨p, i, hp, ⟨dot, by omega, rfl⟩, ?_⟩
    simpa [and_assoc] using h

/-- A state with the dot before a name has all productions of that name with the dot in front. -/
lemma closure_enters (hx : x ∈ closure productions kernel) {p : Production} {i : ℕ}
    (hnext : x.next? productions = some (.nonterminal p.lhs)) (hp : productions[i]? = some p)
    (hi : i ≠ 0) : ⟨i, 0⟩ ∈ closure productions kernel := by
  refine mem_closure.2 ⟨p, hp, Nat.zero_le _, Or.inr ⟨rfl, hi, ?_⟩⟩
  obtain ⟨q, hq, -, hmem⟩ := mem_closure.1 hx
  rcases hmem with hmem | ⟨hdot, -, hlhs⟩
  · exact mem_enteredNames_of_next? hmem hnext
  · -- the place has been entered itself, and begins with the name
    obtain ⟨q', hq', hfront⟩ := next?_eq_some.1 hnext
    obtain rfl : q = q' := Option.some.inj (hq.symm.trans hq')
    rw [hdot] at hfront
    exact mem_enteredNames_of_front (List.mem_of_getElem? hq) hlhs hfront

/-! ### The state behind a symbol -/

lemma mem_outgoing {a : Symbol} :
    (a, x) ∈ outgoing productions s ↔ x ∈ s ∧ x.next? productions = some a := by
  rw [outgoing, List.mem_filterMap]
  constructor
  · rintro ⟨y, hy, h⟩
    obtain ⟨b, hb, heq⟩ := Option.map_eq_some_iff.1 h
    obtain ⟨rfl, rfl⟩ := Prod.mk.inj heq
    exact ⟨hy, hb⟩
  · rintro ⟨hx, h⟩
    exact ⟨x, hx, by rw [h, Option.map_some]⟩

lemma mem_nextSymbols {a : Symbol} :
    a ∈ nextSymbols productions s ↔ ∃ x ∈ s, x.next? productions = some a := by
  rw [nextSymbols, List.mem_mergeSort, Choice.mem_distinct, List.mem_map]
  constructor
  · rintro ⟨⟨b, x⟩, h, rfl⟩
    exact ⟨x, mem_outgoing.1 h⟩
  · rintro ⟨x, hx⟩
    exact ⟨(a, x), mem_outgoing.2 hx, rfl⟩

/-- Places of a state behind a symbol with the dot in front have been entered, and the dots of the
others have just moved over the symbol. -/
lemma mem_successor {a : Symbol} {i dot : ℕ} :
    ⟨i, dot + 1⟩ ∈ successor productions s a ↔
      ⟨i, dot⟩ ∈ s ∧ (Place.mk i dot).next? productions = some a := by
  rw [successor, mem_closure]
  constructor
  · rintro ⟨p, -, -, hmem | ⟨hdot, -⟩⟩
    · obtain ⟨⟨b, y⟩, hy, heq⟩ := List.mem_map.1 hmem
      obtain ⟨hout, hb⟩ := List.mem_filter.1 hy
      obtain rfl : b = a := by simpa using hb
      obtain ⟨rfl, hsucc⟩ := Place.mk.inj heq
      obtain rfl : y.dot = dot := Nat.succ.inj hsucc
      exact mem_outgoing.1 hout
    · cases hdot
  · rintro ⟨hmem, hnext⟩
    obtain ⟨p, hp, hrhs⟩ := next?_eq_some.1 hnext
    obtain ⟨hlt, -⟩ := List.getElem?_eq_some_iff.1 hrhs
    refine ⟨p, hp, hlt, Or.inl (List.mem_map.2 ⟨(a, ⟨i, dot⟩), ?_, rfl⟩)⟩
    exact List.mem_filter.2 ⟨mem_outgoing.2 ⟨hmem, hnext⟩, by simp⟩

end DeductiveParsing.Lr
