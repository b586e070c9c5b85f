/-
What clauses have as their consequences.

* `Undischarged`: what the clauses that are left and the facts that wait have to do with the clauses
  at the beginning, which each fact that is taken up preserves;
* `consequences_closed`: a clause whose premises are consequences has a consequence as its
  conclusion;
* `consequences_induction`: nothing else is a consequence.
-/
import DeductiveParsing.Closure.Horn
import DeductiveParsing.Proofs.Closure.Reachable

namespace DeductiveParsing.Clause

lemma isReady_iff {α : Type} {c : Clause α} : c.isReady = true ↔ c.premises = [] :=
  List.isEmpty_iff

variable {α : Type} [DecidableEq α] {all clauses : List (Clause α)} {known facts : List α} {x : α}

/-- Clauses that are left have premises. What is left of each clause are its premises that are not
known, or its conclusion is known or a fact that waits. -/
structure Undischarged (all clauses : List (Clause α)) (known facts : List α) : Prop where
  ne_nil : ∀ c ∈ clauses, c.premises ≠ []
  accounts : ∀ c ∈ all, c.conclusion ∈ known ∨ c.conclusion ∈ facts ∨
    ⟨c.premises.filter (· ∉ known), c.conclusion⟩ ∈ clauses

/-- At the beginning the clauses without premises have given facts. -/
lemma undischarged_partition (all : List (Clause α)) :
    Undischarged all (all.partition isReady).2 []
      ((all.partition isReady).1.map conclusion) where
  ne_nil c hc := fun hnil => (mem_partition_snd.1 hc).2 (isReady_iff.2 hnil)
  accounts c hc := by
    by_cases hready : c.isReady = true
    · exact Or.inr (Or.inl (List.mem_map_of_mem (mem_partition_fst.2 ⟨hc, hready⟩)))
    · refine Or.inr (Or.inr (mem_partition_snd.2 ⟨?_, ?_⟩))
      · simpa using hc
      · simpa [isReady] using hready

/-- A fact that is known changes nothing. -/
lemma Undischarged.skip (h : Undischarged all clauses known (x :: facts)) (hx : x ∈ known) :
    Undischarged all clauses known facts where
  ne_nil := h.ne_nil
  accounts c hc := by
    rcases h.accounts c hc with hknown | hwaits | hleft
    · exact Or.inl hknown
    · rcases List.mem_cons.1 hwaits with heq | hwaits
      · exact Or.inl (heq ▸ hx)
      · exact Or.inr (Or.inl hwaits)
    · exact Or.inr (Or.inr hleft)

/-- A new fact is discharged from all clauses. -/
lemma Undischarged.discharge (h : Undischarged all clauses known (x :: facts)) :
    Undischarged all (dischargeAll x clauses).2 (x :: known)
      ((dischargeAll x clauses).1.map conclusion ++ facts) where
  ne_nil c hc := fun hnil => (mem_partition_snd.1 hc).2 (isReady_iff.2 hnil)
  accounts c hc := by
    rcases h.accounts c hc with hknown | hwaits | hleft
    · exact Or.inl (List.mem_cons_of_mem _ hknown)
    · rcases List.mem_cons.1 hwaits with heq | hwaits
      · exact Or.inl (heq ▸ List.mem_cons_self)
      · exact Or.inr (Or.inl (List.mem_append_right _ hwaits))
    · have hpremises : (c.premises.filter (· ∉ known)).filter (· ≠ x) =
          c.premises.filter (· ∉ x :: known) := by
        rw [List.filter_filter]
        refine List.filter_congr fun y _ => ?_
        simp [not_or]
      have hmem : (⟨c.premises.filter (· ∉ x :: known), c.conclusion⟩ : Clause α) ∈
          clauses.map (Clause.discharge x) :=
        List.mem_map.2 ⟨_, hleft, by rw [Clause.discharge, hpremises]⟩
      refine Or.inr ?_
      by_cases hready : isReady ⟨c.premises.filter (· ∉ x :: known), c.conclusion⟩ = true
      · have hfact := List.mem_map_of_mem (f := conclusion) (mem_partition_fst.2 ⟨hmem, hready⟩)
        exact Or.inl (List.mem_append_left _ hfact)
      · exact Or.inr (mem_partition_snd.2 ⟨hmem, hready⟩)

/-- When no fact waits any more, a clause whose premises are known has a known conclusion. -/
lemma consequencesFrom_closed (h : Undischarged all clauses known facts) :
    ∀ c ∈ all, (∀ y ∈ c.premises, y ∈ consequencesFrom clauses known facts) →
      c.conclusion ∈ consequencesFrom clauses known facts := by
  induction clauses, known, facts using consequencesFrom.induct with
  | case1 clauses known =>
      intro c hc hpremises
      rw [consequencesFrom] at hpremises ⊢
      rcases h.accounts c hc with hknown | hwaits | hleft
      · exact hknown
      · exact absurd hwaits List.not_mem_nil
      · refine absurd (List.filter_eq_nil_iff.2 fun y hy => ?_) (h.ne_nil _ hleft)
        simpa using hpremises y hy
  | case2 clauses known x facts hx ih =>
      rw [consequencesFrom, if_pos hx]
      exact ih (h.skip hx)
  | case3 clauses known x facts hx parts ih =>
      rw [consequencesFrom, if_neg hx]
      exact ih h.discharge

/-- What is true of all facts and goes from the premises of clauses to their conclusions is true of
everything that follows. -/
lemma consequencesFrom_induction {P : α → Prop} (hknown : ∀ y ∈ known, P y)
    (hfacts : ∀ y ∈ facts, P y)
    (hclauses : ∀ c ∈ clauses, (∀ y ∈ c.premises, P y) → P c.conclusion) :
    ∀ y ∈ consequencesFrom clauses known facts, P y := by
  induction clauses, known, facts using consequencesFrom.induct with
  | case1 clauses known =>
      rw [consequencesFrom]
      exact hknown
  | case2 clauses known x facts hx ih =>
      rw [consequencesFrom, if_pos hx]
      exact ih hknown (fun y hy => hfacts y (List.mem_cons_of_mem _ hy)) hclauses
  | case3 clauses known x facts hx parts ih =>
      rw [consequencesFrom, if_neg hx]
      have hPx : P x := hfacts x List.mem_cons_self
      -- with the fact at hand, a clause says the same without it
      have hdischarged : ∀ c ∈ clauses.map (discharge x),
          (∀ y ∈ c.premises, P y) → P c.conclusion := by
        intro c hc hpremises
        obtain ⟨d, hd, rfl⟩ := List.mem_map.1 hc
        refine hclauses d hd fun y hy => ?_
        by_cases heq : y = x
        · exact heq ▸ hPx
        · exact hpremises y (List.mem_filter.2 ⟨hy, by simpa using heq⟩)
      refine ih (fun y hy => ?_) (fun y hy => ?_) fun c hc =>
        hdischarged c (mem_partition_snd.1 hc).1
      · rcases List.mem_cons.1 hy with rfl | hy
        · exact hPx
        · exact hknown y hy
      · rcases List.mem_append.1 hy with hy | hy
        · obtain ⟨c, hc, rfl⟩ := List.mem_map.1 hy
          obtain ⟨hmem, hready⟩ := mem_partition_fst.1 hc
          refine hdischarged c hmem fun z hz => ?_
          rw [isReady_iff.1 hready] at hz
          exact absurd hz List.not_mem_nil
        · exact hfacts y (List.mem_cons_of_mem _ hy)

/-- A clause whose premises are consequences has a consequence as its conclusion. -/
theorem consequences_closed : ∀ c ∈ clauses, (∀ y ∈ c.premises, y ∈ consequences clauses) →
    c.conclusion ∈ consequences clauses := consequencesFrom_closed (undischarged_partition clauses)

/-- What goes from the premises of clauses to their conclusions is true of all consequences. -/
theorem consequences_induction {P : α → Prop}
    (hclauses : ∀ c ∈ clauses, (∀ y ∈ c.premises, P y) → P c.conclusion) :
    ∀ y ∈ consequences clauses, P y := by
  refine consequencesFrom_induction (fun y hy => absurd hy List.not_mem_nil) (fun y hy => ?_)
    fun c hc => hclauses c (mem_partition_snd.1 hc).1
  obtain ⟨c, hc, rfl⟩ := List.mem_map.1 hy
  obtain ⟨hmem, hready⟩ := mem_partition_fst.1 hc
  refine hclauses c hmem fun z hz => ?_
  rw [isReady_iff.1 hready] at hz
  exact absurd hz List.not_mem_nil

end DeductiveParsing.Clause
