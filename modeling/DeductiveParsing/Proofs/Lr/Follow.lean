/-
What names begin with, and what can follow them.

* `mem_firstOf_iff`: the terminals with which a name begins are those that begin forms derived from
  it;
* `Occurs`, `Ends`: names with symbols behind them in productions, and the edges of endings;
* `Precedes`, `precedes_of_unfolds`: what stands behind a name in a form comes from a production, or
  from what stands behind a name that ends in it;
* `mem_followOf_iff`: the followers of a name are the terminals that stand right behind it in derived
  forms, and the end mark if what the start symbol derives ends in it;
* `lookup_follows`: the table of what follows the names on left-hand sides.
-/
import DeductiveParsing.Lr.First
import DeductiveParsing.Proofs.Choice
import DeductiveParsing.Proofs.Closure.Reachable
import DeductiveParsing.Proofs.ContextFree.Beginnings
import DeductiveParsing.Proofs.ContextFree.Nullable

namespace DeductiveParsing.Lr

open ContextFree Grammar Relation Rewriting

variable {g : Grammar} {p : Production} {symbols us vs after rest : List Symbol} {x y : Symbol}
  {a b c : String}

/-! ### Grammars without empty productions -/

/-- Nothing gets shorter. -/
lemma length_le_of_unfolds (hempty : g.hasEmptyProduction = false)
    (h : Unfolds g.Replaces us vs) : us.length ≤ vs.length := by
  refine h.length_le fun x rhs hx => ?_
  obtain ⟨p, hp, -, rfl⟩ := hx
  exact Grammar.rhs_ne_nil hempty hp

/-! ### What a name begins with -/

lemma mem_terminalsBelow {edges : List (Symbol × Symbol)} :
    a ∈ terminalsBelow edges symbols ↔
      ∃ x ∈ symbols, ReflTransGen (fun c d => (c, d) ∈ edges) x (.terminal a) := by
  rw [← mem_reachable_iff, terminalsBelow, terminalNames, List.mem_map]
  constructor
  · rintro ⟨x, hx, rfl⟩
    obtain ⟨hx, hterminal⟩ := List.mem_filter.1 hx
    cases x with
    | terminal c => exact hx
    | nonterminal c => cases hterminal
  · intro h
    exact ⟨.terminal a, List.mem_filter.2 ⟨h, rfl⟩, rfl⟩

/-- The openers of a sequence are the symbols that it exposes. -/
lemma mem_openers : x ∈ openers g.nullables symbols ↔ g.Exposes symbols x := by
  induction symbols with
  | nil => simp [openers, not_exposes_nil]
  | cons y symbols ih =>
      rw [exposes_cons_iff, ← ih]
      cases y with
      | terminal d => simp [openers, not_derives_terminal_nil, eq_comm]
      | nonterminal d =>
          rw [openers, List.mem_cons, eq_comm, ← mem_nullables_iff]
          by_cases hd : d ∈ g.nullables <;> simp [hd]

/-- The edges of beginnings are those of productions that open with symbols. -/
lemma mem_openerEdges_iff : (x, y) ∈ openerEdges g ↔ g.Opens x y := by
  rw [openerEdges, List.mem_flatMap]
  refine exists_congr fun p => and_congr_right fun _ => ?_
  rw [List.mem_map, ← mem_openers]
  constructor
  · rintro ⟨z, hz, heq⟩
    obtain ⟨rfl, rfl⟩ := Prod.mk.inj heq
    exact ⟨rfl, hz⟩
  · rintro ⟨rfl, hy⟩
    exact ⟨y, hy, rfl⟩

/-- The terminals below the openers of a sequence are those that begin forms derived from it. -/
lemma mem_terminalsBelow_openers :
    a ∈ terminalsBelow (openerEdges g) (openers g.nullables symbols) ↔
      ∃ rest, g.Derives symbols (.terminal a :: rest) := by
  rw [mem_terminalsBelow, exists_derives_cons_iff]
  simp only [mem_openers, mem_openerEdges_iff]

/-- The terminals with which a name begins are those that begin forms derived from it. -/
theorem mem_firstOf_iff :
    a ∈ firstOf g b ↔ ∃ rest, g.Derives [.nonterminal b] (.terminal a :: rest) := by
  rw [firstOf, mem_terminalsBelow, exists_derives_cons_iff]
  simp only [exposes_singleton_iff, mem_openerEdges_iff, List.mem_singleton, eq_comm]

/-! ### What stands behind a name -/

lemma mem_occurrences :
    (b, rest) ∈ occurrences symbols ↔ ∃ before, symbols = before ++ .nonterminal b :: rest := by
  induction symbols with
  | nil => simp [occurrences]
  | cons x symbols ih =>
      have hcons : (∃ before, x :: symbols = before ++ .nonterminal b :: rest) ↔
          x = .nonterminal b ∧ symbols = rest ∨
            ∃ before, symbols = before ++ .nonterminal b :: rest := by
        constructor
        · rintro ⟨before, h⟩
          rcases List.cons_eq_append_iff.1 h with ⟨-, h⟩ | ⟨before, -, h⟩
          · obtain ⟨rfl, rfl⟩ := List.cons.inj h
            exact Or.inl ⟨rfl, rfl⟩
          · exact Or.inr ⟨before, h⟩
        · rintro (⟨rfl, rfl⟩ | ⟨before, rfl⟩)
          · exact ⟨[], rfl⟩
          · exact ⟨x :: before, rfl⟩
      rw [hcons]
      cases x with
      | terminal c => simpa [occurrences] using ih
      | nonterminal c =>
          rw [occurrences, List.mem_cons, ih, Prod.mk.injEq, Symbol.nonterminal.injEq, eq_comm,
            @eq_comm _ rest]

/-- Whether a production has a name with symbols behind it. -/
def Occurs (g : Grammar) (c b : String) (after : List Symbol) : Prop :=
  ∃ p ∈ g.productions, p.lhs = c ∧ ∃ before, p.rhs = before ++ .nonterminal b :: after

/-- The edges of endings lead from a name to those that it ends a production of, if what stands
behind it can be erased. -/
lemma mem_endingEdges_iff :
    (b, c) ∈ endingEdges g ↔ ∃ after, Occurs g c b after ∧ g.Derives after [] := by
  rw [endingEdges, List.mem_flatMap]
  constructor
  · rintro ⟨p, hp, h⟩
    obtain ⟨⟨d, after⟩, ho, heq⟩ := List.mem_map.1 h
    obtain ⟨rfl, rfl⟩ := Prod.mk.inj heq
    obtain ⟨hmem, hnull⟩ := List.mem_filter.1 ho
    exact ⟨after, ⟨p, hp, rfl, mem_occurrences.1 hmem⟩, allNullable_iff.1 hnull⟩
  · rintro ⟨after, ⟨p, hp, rfl, hrhs⟩, hafter⟩
    refine ⟨p, hp, List.mem_map.2 ⟨(b, after), List.mem_filter.2 ⟨?_, ?_⟩, rfl⟩⟩
    · exact mem_occurrences.2 hrhs
    · exact allNullable_iff.2 hafter

/-- The neighbours of a name are the terminals that begin what can be derived from what stands
behind it in productions. -/
lemma exists_neighbours_iff :
    (∃ entry ∈ neighbours g, entry.1 = b ∧ a ∈ entry.2) ↔
      ∃ c after rest, Occurs g c b after ∧ g.Derives after (.terminal a :: rest) := by
  have hfound : ∀ after, (b, after) ∈ allOccurrences g ↔ ∃ c, Occurs g c b after := by
    intro after
    rw [allOccurrences, List.mem_flatMap]
    constructor
    · rintro ⟨p, hp, h⟩
      exact ⟨p.lhs, p, hp, rfl, mem_occurrences.1 h⟩
    · rintro ⟨c, p, hp, -, h⟩
      exact ⟨p, hp, mem_occurrences.2 h⟩
  constructor
  · rintro ⟨entry, hentry, rfl, ha⟩
    obtain ⟨name, -, rfl⟩ := List.mem_map.1 hentry
    obtain ⟨x, hx, hreach⟩ := mem_terminalsBelow.1 ha
    obtain ⟨⟨d, after⟩, ho, hopener⟩ := List.mem_flatMap.1 hx
    obtain ⟨hmem, hd⟩ := List.mem_filter.1 ho
    obtain rfl := beq_iff_eq.1 hd
    obtain ⟨c, hc⟩ := (hfound after).1 hmem
    obtain ⟨rest, h⟩ := mem_terminalsBelow_openers.1 (mem_terminalsBelow.2 ⟨x, hopener, hreach⟩)
    exact ⟨c, after, rest, hc, h⟩
  · rintro ⟨c, after, rest, hc, h⟩
    have hmem := (hfound after).2 ⟨c, hc⟩
    obtain ⟨x, hx, hreach⟩ := mem_terminalsBelow.1 (mem_terminalsBelow_openers.2 ⟨rest, h⟩)
    refine ⟨_, List.mem_map.2 ⟨b, Choice.mem_distinct.2 (List.mem_map_of_mem hmem), rfl⟩, rfl, ?_⟩
    refine mem_terminalsBelow.2 ⟨x, List.mem_flatMap.2 ⟨(b, after), ?_, hx⟩, hreach⟩
    exact List.mem_filter.2 ⟨hmem, beq_self_eq_true b⟩

/-! ### What follows a name -/

/-- What follows a name is a neighbour of a name to which the edges of endings lead, or it is the
end of the input and they lead to the start symbol. -/
theorem mem_followOf :
    a ∈ followOf g b ↔
      ∃ c, ReflTransGen (fun x y => (x, y) ∈ endingEdges g) b c ∧
        (c = g.start ∧ a = endMark ∨ ∃ entry ∈ neighbours g, entry.1 = c ∧ a ∈ entry.2) := by
  have hnames : ∀ c, c ∈ reachable (endingEdges g) [b] ↔
      ReflTransGen (fun x y => (x, y) ∈ endingEdges g) b c := by
    intro c
    rw [mem_reachable_iff]
    simp
  rw [followOf, followAlong, Choice.mem_distinct, List.mem_append]
  constructor
  · rintro (h | h)
    · split at h
      · rename_i hstart
        exact ⟨g.start, (hnames _).1 (List.contains_iff_mem.1 hstart),
          Or.inl ⟨rfl, List.mem_singleton.1 h⟩⟩
      · cases h
    · obtain ⟨entry, hentry, ha⟩ := List.mem_flatMap.1 h
      obtain ⟨hmem, hreach⟩ := List.mem_filter.1 hentry
      exact ⟨entry.1, (hnames _).1 (List.contains_iff_mem.1 hreach), Or.inr ⟨entry, hmem, rfl, ha⟩⟩
  · rintro ⟨c, hreach, ⟨rfl, rfl⟩ | ⟨entry, hentry, rfl, ha⟩⟩
    · rw [if_pos (List.contains_iff_mem.2 ((hnames _).2 hreach))]
      exact Or.inl (List.mem_singleton_self _)
    · refine Or.inr (List.mem_flatMap.2 ⟨entry, List.mem_filter.2 ⟨hentry, ?_⟩, ha⟩)
      exact List.contains_iff_mem.2 ((hnames _).2 hreach)

lemma endMark_mem_followOf : endMark ∈ followOf g g.start :=
  mem_followOf.2 ⟨g.start, .refl, Or.inl ⟨rfl, rfl⟩⟩

/-- What begins a form derived from what stands behind a name follows the name. -/
lemma mem_followOf_of_behind (hoccurs : Occurs g c b after)
    (h : g.Derives after (.terminal a :: rest)) : a ∈ followOf g b :=
  mem_followOf.2 ⟨b, .refl, Or.inr (exists_neighbours_iff.2 ⟨c, after, rest, hoccurs, h⟩)⟩

/-- What follows a name also follows the names in which its productions end. -/
lemma mem_followOf_of_ending (hoccurs : Occurs g c b after) (hafter : g.Derives after [])
    (h : a ∈ followOf g c) : a ∈ followOf g b := by
  obtain ⟨d, hreach, hd⟩ := mem_followOf.1 h
  exact mem_followOf.2 ⟨d, hreach.head (mem_endingEdges_iff.2 ⟨after, hoccurs, hafter⟩), hd⟩

/-- Whether edges of endings lead from one name to another. -/
def Ends (g : Grammar) (b c : String) : Prop :=
  ReflTransGen (fun x y => (x, y) ∈ endingEdges g) b c

lemma Occurs.derives {after : List Symbol} (h : Occurs g c b after) :
    ∃ before, g.Derives [.nonterminal c] (before ++ .nonterminal b :: after) := by
  obtain ⟨p, hp, rfl, before, hrhs⟩ := h
  exact ⟨before, derives_of_production hp (hrhs ▸ .refl _)⟩

/-- A name to which edges of endings lead derives a form that ends in the first one. -/
lemma Ends.exists_derives (h : Ends g b c) :
    ∃ before, g.Derives [.nonterminal c] (before ++ [.nonterminal b]) := by
  induction h with
  | refl => exact ⟨[], .refl _⟩
  | tail _ hedge ih =>
      obtain ⟨before, hbefore⟩ := ih
      obtain ⟨after, hoccurs, hafter⟩ := mem_endingEdges_iff.1 hedge
      obtain ⟨before', hbefore'⟩ := hoccurs.derives
      refine ⟨before' ++ before, hbefore'.trans ?_⟩
      have hparts := (hbefore.append hafter).append_left before'
      simpa using hparts

/-- Where what stands behind a name in a form that a sequence derives comes from: it begins with what
is derived from the symbols behind a name in a production, which this one ends; or this one ends a
name of the sequence, and it is derived from what stands behind that. -/
def Precedes (g : Grammar) (us : List Symbol) (b : String) (right : List Symbol) : Prop :=
  (∃ c d after first rest, Ends g b c ∧ Occurs g d c after ∧ g.Derives after first ∧ first ≠ [] ∧
      right = first ++ rest) ∨
    ∃ before c after, us = before ++ .nonterminal c :: after ∧ Ends g b c ∧ g.Derives after right

variable {left right : List Symbol}

lemma Precedes.cons (h : Precedes g us b right) (x : Symbol) : Precedes g (x :: us) b right := by
  rcases h with h | ⟨before, c, after, rfl, hends, hafter⟩
  · exact Or.inl h
  · exact Or.inr ⟨x :: before, c, after, rfl, hends, hafter⟩

/-- What stands behind a name in the form of a right-hand side, in front of the form of later
symbols. -/
lemma Precedes.of_rhs (hp : p ∈ g.productions) (h : Precedes g p.rhs b right)
    (hus : g.Derives us vs) : Precedes g (.nonterminal p.lhs :: us) b (right ++ vs) := by
  rcases h with ⟨c, d, after, first, rest, hends, hoccurs, hafter, hne, rfl⟩ |
    ⟨before, c, after, hrhs, hends, hafter⟩
  · exact Or.inl ⟨c, d, after, first, rest ++ vs, hends, hoccurs, hafter, hne,
      List.append_assoc _ _ _⟩
  · have hoccurs : Occurs g p.lhs c after := ⟨p, hp, rfl, before, hrhs⟩
    by_cases hright : right = []
    · -- nothing of the right-hand side stands behind the name
      subst hright
      have hedge := mem_endingEdges_iff.2 ⟨after, hoccurs, hafter⟩
      exact Or.inr ⟨[], p.lhs, us, rfl, hends.tail hedge, hus⟩
    · exact Or.inl ⟨c, p.lhs, after, right, vs, hends, hoccurs, hafter, hright, rfl⟩

/-- Names in a form precede what stands behind them. -/
lemma precedes_of_unfolds (h : Unfolds g.Replaces us vs)
    (hvs : vs = left ++ .nonterminal b :: right) : Precedes g us b right := by
  induction h generalizing left right with
  | nil => simp at hvs
  | @keep x xs ys hxs ih =>
      rcases List.cons_eq_append_iff.1 hvs with ⟨-, heq⟩ | ⟨left, -, heq⟩
      · obtain ⟨rfl, rfl⟩ := List.cons.inj heq
        exact Or.inr ⟨[], b, xs, rfl, .refl, hxs.derives⟩
      · exact (ih heq).cons x
  | @expand x rhs us xs ys hx _ hxs ihrhs ihxs =>
      obtain ⟨p, hp, rfl, rfl⟩ := hx
      rcases occurrence_append_cases hvs with ⟨m, hus, rfl⟩ | ⟨m, -, hys⟩
      · exact (ihrhs hus).of_rhs hp hxs.derives
      · exact (ihxs hys).cons _

/-- The followers of a name are the terminals that stand right behind it in derived forms, and the
end mark if the start symbol derives a form that ends in it. -/
theorem mem_followOf_iff :
    a ∈ followOf g b ↔
      (∃ c before after,
        g.Derives [.nonterminal c] (before ++ .nonterminal b :: .terminal a :: after)) ∨
      a = endMark ∧ ∃ before, g.Derives [.nonterminal g.start] (before ++ [.nonterminal b]) := by
  rw [mem_followOf]
  constructor
  · rintro ⟨c, hends, hc⟩
    obtain ⟨before, hbefore⟩ := Ends.exists_derives hends
    rcases hc with ⟨rfl, rfl⟩ | hnear
    · exact Or.inr ⟨rfl, before, hbefore⟩
    · obtain ⟨d, after, rest, hoccurs, hafter⟩ := exists_neighbours_iff.1 hnear
      obtain ⟨before', hbefore'⟩ := hoccurs.derives
      refine Or.inl ⟨d, before' ++ before, rest, hbefore'.trans ?_⟩
      have hparts := (hbefore.append hafter).append_left before'
      simpa using hparts
  · rintro (⟨c, before, after, h⟩ | ⟨rfl, before, h⟩)
    · rcases precedes_of_unfolds (unfolds_iff_derives.2 h) rfl with
        ⟨d, e, behind, first, rest, hends, hoccurs, hbehind, hne, heq⟩ |
        ⟨left, d, right, heq, -, hright⟩
      · obtain ⟨x, first, rfl⟩ := List.exists_cons_of_ne_nil hne
        obtain ⟨rfl, -⟩ := List.cons.inj heq
        exact ⟨d, hends, Or.inr (exists_neighbours_iff.2 ⟨e, behind, first, hoccurs, hbehind⟩)⟩
      · -- nothing stands behind the name with which the derivation begins
        obtain ⟨-, -, rfl⟩ := eq_of_singleton_eq_append heq
        cases eq_nil_of_nil_derives hright
    · rcases precedes_of_unfolds (unfolds_iff_derives.2 h) rfl with
        ⟨d, e, behind, first, rest, -, -, -, hne, heq⟩ | ⟨left, d, right, heq, hends, -⟩
      · exact absurd (List.append_eq_nil_iff.1 heq.symm).1 hne
      · obtain ⟨-, hstart, -⟩ := eq_of_singleton_eq_append heq
        obtain rfl := Symbol.nonterminal.inj hstart
        exact ⟨g.start, hends, Or.inl ⟨rfl, rfl⟩⟩

/-! ### The table of followers -/

lemma lookup_map {β : Type} (f : String → β) {names : List String} (h : b ∈ names) :
    (names.map fun name => (name, f name)).lookup b = some (f b) := by
  induction names with
  | nil => cases h
  | cons c names ih =>
      rw [List.map_cons, List.lookup_cons]
      split
      · rename_i heq
        rw [beq_iff_eq.1 heq]
      · rename_i hne
        exact ih ((List.mem_cons.1 h).resolve_left (by simpa using hne))

/-- The table lists what follows each name on a left-hand side. -/
lemma lookup_follows (hp : p ∈ g.productions) :
    (follows g).lookup p.lhs = some (followOf g p.lhs) := by
  have hname : p.lhs ∈ Choice.distinct g.lhsNames := Choice.mem_distinct.2 (List.mem_map_of_mem hp)
  exact lookup_map _ hname

end DeductiveParsing.Lr
