/-
Forests and the trees that they leave out.

* `Forest.prefix_merge`: merging puts trees behind those that are there;
* `Forest.excludes_merge`: all trees that are merged are there afterwards, or repeat one that is;
* `Forest.mem_pair`: the trees that arise from one tree of each of two forests.
-/
import Mathlib.Tactic
import DeductiveParsing.Item.Forest
import DeductiveParsing.Proofs.Choice

namespace DeductiveParsing

namespace Forest

variable {forest forest' new : List Tree} {t : Tree}

/-- Merging puts trees behind those that are there. -/
lemma prefix_merge (forest new : List Tree) : forest <+: merge forest new := by
  induction new generalizing forest with
  | nil => exact List.prefix_rfl
  | cons t new ih =>
      rw [merge, List.foldl_cons]
      refine List.IsPrefix.trans ?_ (ih _)
      split
      · exact List.prefix_rfl
      · exact List.prefix_append _ _

lemma mem_merge (h : t ∈ merge forest new) : t ∈ forest ∨ t ∈ new := by
  induction new generalizing forest with
  | nil => exact Or.inl h
  | cons u new ih =>
      rw [merge, List.foldl_cons] at h
      rcases ih h with h | h
      · split at h
        · exact Or.inl h
        · rcases List.mem_append.1 h with h | h
          · exact Or.inl h
          · exact Or.inr (List.mem_singleton.1 h ▸ List.mem_cons_self)
      · exact Or.inr (List.mem_cons_of_mem _ h)

lemma excludes_iff : excludes forest t = true ↔
    t ∈ forest ∨ ∃ u ∈ forest, t.hasProperSubtree u = true := by
  simp [excludes]

/-- A tree that a forest leaves out is in it, if none of the trees there occurs in it. -/
lemma mem_of_excludes (h : excludes forest t = true)
    (hnone : ∀ u ∈ forest, t.hasProperSubtree u = false) : t ∈ forest := by
  rcases excludes_iff.1 h with hmem | ⟨u, hu, hsub⟩
  · exact hmem
  · rw [hnone u hu] at hsub
    cases hsub

/-- What a forest leaves out, larger ones leave out. -/
lemma excludes_mono (h : forest ⊆ forest') (ht : excludes forest t = true) :
    excludes forest' t = true := by
  rcases excludes_iff.1 ht with ht | ⟨u, hu, hsub⟩
  · exact excludes_iff.2 (Or.inl (h ht))
  · exact excludes_iff.2 (Or.inr ⟨u, h hu, hsub⟩)

/-- All trees that are merged are there afterwards, or repeat a tree that is there. -/
lemma excludes_merge (h : t ∈ new) : excludes (merge forest new) t = true := by
  induction new generalizing forest with
  | nil => cases h
  | cons u new ih =>
      rw [merge, List.foldl_cons]
      rcases List.mem_cons.1 h with rfl | h
      · refine excludes_mono (prefix_merge _ _).subset ?_
        split
        · assumption
        · exact excludes_iff.2 (Or.inl (List.mem_append_right _ (List.mem_singleton_self t)))
      · exact ih h

/-- A tree that a forest leaves out is not among those that merging brings. -/
lemma excludes_eq_false_of_mem_merge (h : t ∈ merge forest new) (hnew : t ∉ forest) :
    t ∈ new ∧ excludes forest t = false := by
  induction new generalizing forest with
  | nil => exact absurd h hnew
  | cons u new ih =>
      rw [merge, List.foldl_cons] at h
      split at h
      · exact (ih h hnew).imp_left (List.mem_cons_of_mem _)
      · rename_i hin
        by_cases htu : t = u
        · rw [htu]
          exact ⟨List.mem_cons_self, by simpa using hin⟩
        · obtain ⟨hmem, hout⟩ := ih h (by simp [hnew, htu])
          refine ⟨List.mem_cons_of_mem _ hmem, ?_⟩
          rw [← Bool.not_eq_true] at hout ⊢
          exact fun hexcludes => hout (excludes_mono (List.subset_append_left _ _) hexcludes)

lemma mem_pair {ts us : List Tree} {combine : Tree → Tree → Option Tree} :
    t ∈ pair ts us combine ↔ ∃ u ∈ ts, ∃ v ∈ us, combine u v = some t := by
  simp [pair, Choice.mem_distinct]

end Forest

end DeductiveParsing
