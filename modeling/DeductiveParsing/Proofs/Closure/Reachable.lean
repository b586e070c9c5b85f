/-
What the search along edges finds.

* `reachFrom_closed`: every edge of what has been found is followed;
* `reachFrom_induction`: nothing else is found;
* `mem_reachable_iff`: an element is found exactly if edges lead to it from one of the first
  elements.
-/
import DeductiveParsing.Closure.Reachable
import Mathlib.Tactic

namespace DeductiveParsing

variable {α : Type} {edges : List (α × α)} {known frontier : List α} {a b : α}

lemma mem_partition_fst {p : α → Bool} {xs : List α} :
    a ∈ (xs.partition p).1 ↔ a ∈ xs ∧ p a := by
  rw [List.partition_eq_filter_filter, List.mem_filter]

lemma mem_partition_snd {p : α → Bool} {xs : List α} :
    a ∈ (xs.partition p).2 ↔ a ∈ xs ∧ ¬ p a := by
  rw [List.partition_eq_filter_filter, List.mem_filter]
  simp

variable [DecidableEq α]

/-- What is known or waits on the frontier is found. -/
lemma mem_reachFrom (h : a ∈ known ∨ a ∈ frontier) : a ∈ reachFrom edges known frontier := by
  induction edges, known, frontier using reachFrom.induct with
  | case1 edges known =>
      rw [reachFrom]
      exact h.resolve_right (List.not_mem_nil)
  | case2 edges known x rest hx ih =>
      rw [reachFrom, if_pos hx]
      rcases h with h | h
      · exact ih (Or.inl h)
      · rcases List.mem_cons.1 h with rfl | h
        · exact ih (Or.inl hx)
        · exact ih (Or.inr h)
  | case3 edges known x rest hx parts ih =>
      rw [reachFrom, if_neg hx]
      rcases h with h | h
      · exact ih (Or.inl (List.mem_cons_of_mem _ h))
      · rcases List.mem_cons.1 h with rfl | h
        · exact ih (Or.inl List.mem_cons_self)
        · exact ih (Or.inr (List.mem_append_right _ h))

/-- The edges of `all` are either left or their source is known, and then their target has been put
on the frontier. So no edge of what is found leads out of it. -/
lemma reachFrom_closed {all : List (α × α)} (hedges : ∀ e ∈ all, e ∈ edges ∨ e.1 ∈ known)
    (hknown : ∀ e ∈ all, e.1 ∈ known → e.2 ∈ known ∨ e.2 ∈ frontier) :
    ∀ e ∈ all, e.1 ∈ reachFrom edges known frontier → e.2 ∈ reachFrom edges known frontier := by
  induction edges, known, frontier using reachFrom.induct with
  | case1 edges known =>
      intro e he hmem
      rw [reachFrom] at hmem ⊢
      exact (hknown e he hmem).resolve_right (List.not_mem_nil)
  | case2 edges known x rest hx ih =>
      rw [reachFrom, if_pos hx]
      refine ih hedges fun e he hmem => ?_
      rcases hknown e he hmem with h | h
      · exact Or.inl h
      · rcases List.mem_cons.1 h with heq | h
        · exact Or.inl (heq ▸ hx)
        · exact Or.inr h
  | case3 edges known x rest hx parts ih =>
      rw [reachFrom, if_neg hx]
      refine ih (fun e he => ?_) fun e he hmem => ?_
      · rcases hedges e he with h | h
        · by_cases heq : e.1 = x
          · exact Or.inr (heq ▸ List.mem_cons_self)
          · exact Or.inl (mem_partition_snd.2 ⟨h, by simpa using heq⟩)
        · exact Or.inr (List.mem_cons_of_mem _ h)
      · by_cases heq : e.1 = x
        · -- `x` is new, so its edges have been left until now
          have hleft : e ∈ edges := (hedges e he).resolve_right fun h => hx (heq ▸ h)
          have hpart : e ∈ parts.1 := mem_partition_fst.2 ⟨hleft, by simpa using heq⟩
          exact Or.inr (List.mem_append_left _ (List.mem_map_of_mem hpart))
        · have hold : e.1 ∈ known := (List.mem_cons.1 hmem).resolve_left heq
          rcases hknown e he hold with h | h
          · exact Or.inl (List.mem_cons_of_mem _ h)
          · rcases List.mem_cons.1 h with h | h
            · exact Or.inl (h ▸ List.mem_cons_self)
            · exact Or.inr (List.mem_append_right _ h)

/-- What is true of the first elements and goes along edges is true of everything that is found. -/
lemma reachFrom_induction {P : α → Prop} (hknown : ∀ x ∈ known, P x)
    (hfrontier : ∀ x ∈ frontier, P x) (hstep : ∀ e ∈ edges, P e.1 → P e.2) :
    ∀ x ∈ reachFrom edges known frontier, P x := by
  induction edges, known, frontier using reachFrom.induct with
  | case1 edges known =>
      rw [reachFrom]
      exact hknown
  | case2 edges known x rest hx ih =>
      rw [reachFrom, if_pos hx]
      exact ih hknown (fun y hy => hfrontier y (List.mem_cons_of_mem _ hy)) hstep
  | case3 edges known x rest hx parts ih =>
      rw [reachFrom, if_neg hx]
      have hPx : P x := hfrontier x List.mem_cons_self
      refine ih (fun y hy => ?_) (fun y hy => ?_) fun e he => hstep e (mem_partition_snd.1 he).1
      · rcases List.mem_cons.1 hy with rfl | hy
        · exact hPx
        · exact hknown y hy
      · rcases List.mem_append.1 hy with hy | hy
        · obtain ⟨e, he, rfl⟩ := List.mem_map.1 hy
          obtain ⟨he, hex⟩ := mem_partition_fst.1 he
          have hsource : e.1 = x := by simpa using hex
          exact hstep e he (hsource ▸ hPx)
        · exact hfrontier y (List.mem_cons_of_mem _ hy)

/-- An element is found exactly if edges lead to it from one of the first elements. -/
theorem mem_reachable_iff {start : List α} :
    b ∈ reachable edges start ↔
      ∃ a ∈ start, Relation.ReflTransGen (fun x y => (x, y) ∈ edges) a b := by
  constructor
  · refine reachFrom_induction
      (P := fun b => ∃ a ∈ start, Relation.ReflTransGen (fun x y => (x, y) ∈ edges) a b)
      (fun x hx => absurd hx List.not_mem_nil) (fun x hx => ⟨x, hx, .refl⟩) (fun e he => ?_) b
    rintro ⟨a, ha, h⟩
    exact ⟨a, ha, h.tail he⟩
  · rintro ⟨a, ha, h⟩
    induction h with
    | refl => exact mem_reachFrom (Or.inr ha)
    | tail _ hedge ih =>
        have hnone : ∀ e ∈ edges, e.1 ∈ ([] : List α) → e.2 ∈ [] ∨ e.2 ∈ start :=
          fun e _ h => absurd h List.not_mem_nil
        exact reachFrom_closed (fun e he => Or.inl he) hnone _ hedge ih

end DeductiveParsing
