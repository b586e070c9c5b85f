/-
Left recursion.

* `mem_corners`, `mem_cornerEdges`: edges lead from names to the names with which their productions
  open;
* `mem_below_iff`: what is below a name is reached from it along one or more edges;
* `searchBack`, `exists_searchBack`: a search that stops as soon as it is back at its name ends on
  all graphs, and comes back exactly if the name is below itself;
* `hasLeftRecursion_exact`: left recursion is found exactly if some name derives, in one or more
  steps, a form that begins with it.
-/
import DeductiveParsing.Proofs.Choice
import DeductiveParsing.Proofs.ContextFree.Beginnings
import DeductiveParsing.Proofs.ContextFree.Nullable

namespace DeductiveParsing.ContextFree.Grammar

open Relation Rewriting

variable {g : Grammar} {symbols : List Symbol} {edges : List (String × String)} {a b : String}

/-! ### Corners -/

/-- The corners of a sequence are the names that it exposes. -/
lemma mem_corners : b ∈ corners g.nullables symbols ↔ g.Exposes symbols (.nonterminal b) := by
  induction symbols with
  | nil => simp [corners, not_exposes_nil]
  | cons x symbols ih =>
      rw [exposes_cons_iff, ← ih]
      cases x with
      | terminal c => simp [corners, not_derives_terminal_nil]
      | nonterminal c =>
          rw [corners, List.mem_cons, Symbol.nonterminal.injEq, eq_comm, ← mem_nullables_iff]
          by_cases hc : c ∈ g.nullables <;> simp [hc]

/-- The edges are those of productions that open with names. -/
lemma mem_cornerEdges : (a, b) ∈ g.cornerEdges ↔ g.Opens (.nonterminal a) (.nonterminal b) := by
  rw [cornerEdges, List.mem_flatMap]
  refine exists_congr fun p => and_congr_right fun _ => ?_
  rw [List.mem_map, ← mem_corners, Symbol.nonterminal.injEq]
  constructor
  · rintro ⟨c, hc, heq⟩
    obtain ⟨rfl, rfl⟩ := Prod.mk.inj heq
    exact ⟨rfl, hc⟩
  · rintro ⟨rfl, hb⟩
    exact ⟨b, hb, rfl⟩

/-- Between names, productions open along the edges: only names have productions. -/
lemma transGen_cornerEdges_iff :
    TransGen (fun c d => (c, d) ∈ g.cornerEdges) a b ↔
      TransGen g.Opens (.nonterminal a) (.nonterminal b) := by
  constructor
  · intro h
    exact TransGen.lift Symbol.nonterminal (fun c d hedge => mem_cornerEdges.1 hedge) _ _ h
  · intro h
    generalize hx : Symbol.nonterminal b = x at h
    induction h generalizing b with
    | single h =>
        subst hx
        exact .single (mem_cornerEdges.2 h)
    | tail _ h ih =>
        subst hx
        obtain ⟨p, hp, rfl, hexposes⟩ := h
        exact (ih rfl).tail (mem_cornerEdges.2 ⟨p, hp, rfl, hexposes⟩)

/-! ### What is below a name -/

/-- The names to which edges lead from a name. -/
def targets (edges : List (String × String)) (a : String) : List String :=
  (edges.filter (·.1 == a)).map Prod.snd

lemma mem_targets : b ∈ targets edges a ↔ (a, b) ∈ edges := by
  rw [targets, List.mem_map]
  constructor
  · rintro ⟨⟨c, d⟩, h, rfl⟩
    obtain ⟨hmem, hc⟩ := List.mem_filter.1 h
    exact beq_iff_eq.1 hc ▸ hmem
  · intro h
    exact ⟨(a, b), List.mem_filter.2 ⟨h, beq_self_eq_true a⟩, rfl⟩

/-- What is below a name is reached from it along one or more edges. -/
lemma mem_below_iff : b ∈ below edges a ↔ TransGen (fun c d => (c, d) ∈ edges) a b := by
  have hreach : b ∈ below edges a ↔
      ∃ c ∈ targets edges a, ReflTransGen (fun c d => (c, d) ∈ edges) c b := mem_reachable_iff
  rw [hreach, TransGen.head'_iff]
  exact exists_congr fun c => and_congr_left fun _ => mem_targets

/-- The search for a way from a name back to it. What waits is taken up, at most `fuel` times; if it
is the name, the way is found, and if it has not been seen before, what edges lead to from it waits
as well. -/
def searchBack (edges : List (String × String)) (a : String) :
    ℕ → List String → List String → Option Bool
  | _, _, [] => some false
  | 0, _, _ :: _ => none
  | fuel + 1, seen, b :: waiting =>
    if b = a then some true
    else if b ∈ seen then searchBack edges a fuel seen waiting
    else searchBack edges a fuel (b :: seen) (targets edges b ++ waiting)

/-- From all that has been seen and that waits, the search ends with what is reached along the edges
that have not been followed. -/
lemma exists_searchBack_reachFrom {left : List (String × String)} {seen waiting : List String}
    (hleft : left = edges.filter (·.1 ∉ seen)) (hseen : a ∉ seen) :
    ∃ fuel, searchBack edges a fuel seen waiting =
      some (decide (a ∈ reachFrom left seen waiting)) := by
  induction left, seen, waiting using reachFrom.induct with
  | case1 left seen =>
      refine ⟨0, ?_⟩
      rw [searchBack, reachFrom, decide_eq_false hseen]
  | case2 left seen b waiting hb ih =>
      obtain ⟨fuel, hfuel⟩ := ih hleft hseen
      have hne : b ≠ a := fun heq => hseen (heq ▸ hb)
      refine ⟨fuel + 1, ?_⟩
      rw [searchBack, if_neg hne, if_pos hb, hfuel, reachFrom, if_pos hb]
  | case3 left seen b waiting hb parts ih =>
      by_cases heq : b = a
      · subst heq
        refine ⟨1, ?_⟩
        rw [searchBack, if_pos rfl, decide_eq_true (mem_reachFrom (Or.inr List.mem_cons_self))]
      · have hparts : parts = (left.filter fun e => decide (e.1 = b),
            left.filter fun e => !decide (e.1 = b)) := List.partition_eq_filter_filter ..
        have hfollowed : parts.1.map Prod.snd = targets edges b := by
          rw [hparts, hleft, List.filter_filter, targets]
          refine congrArg _ (List.filter_congr fun e _ => ?_)
          by_cases he : e.1 = b <;> simp [he, hb]
        have hrest : parts.2 = edges.filter (·.1 ∉ b :: seen) := by
          rw [hparts, hleft]
          refine (List.filter_filter ..).trans (List.filter_congr fun e _ => ?_)
          simp [not_or]
        have hseen' : a ∉ b :: seen := List.not_mem_cons_of_ne_of_not_mem (Ne.symm heq) hseen
        obtain ⟨fuel, hfuel⟩ := ih hrest hseen'
        refine ⟨fuel + 1, ?_⟩
        rw [searchBack, if_neg heq, if_neg hb, ← hfollowed, hfuel, reachFrom, if_neg hb]

/-- On every graph the search ends, and comes back to a name exactly if that is below itself. -/
lemma exists_searchBack (edges : List (String × String)) (a : String) :
    ∃ fuel, searchBack edges a fuel [] (targets edges a) =
      some ((below edges a).contains a) := by
  have hall : edges = edges.filter (·.1 ∉ ([] : List String)) := by simp
  obtain ⟨fuel, h⟩ : ∃ fuel, searchBack edges a fuel [] (targets edges a) =
      some (decide (a ∈ reachFrom edges [] (targets edges a))) :=
    exists_searchBack_reachFrom hall List.not_mem_nil
  refine ⟨fuel, ?_⟩
  rw [h, List.contains_eq_mem]
  rfl

/-! ### Left recursion -/

/-- Left recursion is found if some name is below itself. -/
lemma hasLeftRecursion_iff_exists : g.hasLeftRecursion = true ↔ ∃ a, a ∈ below g.cornerEdges a := by
  have hany : g.hasLeftRecursion = true ↔ ∃ a ∈ g.lhsNames, a ∈ below g.cornerEdges a := by
    rw [hasLeftRecursion, List.any_eq_true]
    refine exists_congr fun a => ?_
    rw [Choice.mem_distinct, List.contains_iff_mem]
  rw [hany]
  constructor
  · rintro ⟨a, -, ha⟩
    exact ⟨a, ha⟩
  · rintro ⟨a, ha⟩
    -- an edge leads from the name, so it has a production
    obtain ⟨b, hb, -⟩ := TransGen.head'_iff.1 (mem_below_iff.1 ha)
    obtain ⟨p, hp, heq, -⟩ := mem_cornerEdges.1 hb
    obtain rfl := Symbol.nonterminal.inj heq
    exact ⟨_, List.mem_map_of_mem hp, ha⟩

/-- For all lists of productions, left recursion is found exactly if some name derives, in one or
more steps, a form that begins with it; names in front of it may have been erased. On all graphs the
search for a way back to a name ends, and comes back if the name is among those below it, which are
the names that one or more edges lead to. -/
theorem hasLeftRecursion_exact (g : Grammar) :
    (g.hasLeftRecursion = true ↔
      ∃ a rest, TransGen (Step g.Replaces) [.nonterminal a] (.nonterminal a :: rest)) ∧
    ∀ (edges : List (String × String)) (a : String),
      (∃ fuel, searchBack edges a fuel [] (targets edges a) = some ((below edges a).contains a)) ∧
        ((below edges a).contains a = true ↔ TransGen (fun b c => (b, c) ∈ edges) a a) := by
  constructor
  · rw [hasLeftRecursion_iff_exists]
    refine exists_congr fun a => ?_
    rw [mem_below_iff, transGen_cornerEdges_iff, transGen_opens_iff]
  · intro edges a
    exact ⟨exists_searchBack edges a, List.contains_iff_mem.trans mem_below_iff⟩

end DeductiveParsing.ContextFree.Grammar
