/-
Agendas as lists without repetitions.

* `Agenda.Consistent`: no position waits twice, and the set of waiting positions is the right one;
* `Agenda.toList_add`: a position is added at the end, unless it waits;
* `Agenda.toList_of_next?`: the first position is taken off.
-/
import Mathlib.Tactic
import Std.Data.HashSet.Lemmas
import DeductiveParsing.Deduction.Agenda

namespace DeductiveParsing.Agenda

/-- Whether no position waits twice and the set of waiting positions agrees with their list. -/
structure Consistent (a : Agenda) : Prop where
  nodup : a.toList.Nodup
  contains_iff : ∀ i, a.waiting.contains i = true ↔ i ∈ a.toList

lemma consistent_empty : empty.Consistent := ⟨List.nodup_nil, by simp [empty, toList]⟩

lemma toList_add {a : Agenda} (h : a.Consistent) (i : ℕ) :
    (a.add i).toList = if i ∈ a.toList then a.toList else a.toList ++ [i] := by
  by_cases hi : i ∈ a.toList
  · rw [add, if_pos ((h.contains_iff i).2 hi), if_pos hi]
  · rw [add, if_neg (mt (h.contains_iff i).1 hi), if_neg hi]
    simp [toList]

lemma length_add {a : Agenda} (h : a.Consistent) (i : ℕ) :
    (a.add i).toList.length ≤ a.toList.length + 1 := by
  rw [toList_add h]
  split
  · omega
  · simp

lemma mem_add {a : Agenda} (h : a.Consistent) {i j : ℕ} :
    j ∈ (a.add i).toList ↔ j ∈ a.toList ∨ j = i := by
  rw [toList_add h]
  split
  · rename_i hi
    exact ⟨Or.inl, fun hj => hj.elim id fun hji => hji ▸ hi⟩
  · simp

lemma Consistent.add {a : Agenda} (h : a.Consistent) (i : ℕ) : (a.add i).Consistent := by
  refine ⟨?_, fun j => ?_⟩
  · rw [toList_add h]
    split
    · exact h.nodup
    · rename_i hi
      exact h.nodup.append (List.nodup_singleton i) (List.disjoint_singleton.2 hi)
  · rw [mem_add h, ← h.contains_iff j, Agenda.add]
    by_cases hi : a.waiting.contains i = true
    · rw [if_pos hi]
      exact ⟨Or.inl, fun hj => hj.elim id fun hji => hji ▸ hi⟩
    · rw [if_neg hi, Std.HashSet.contains_insert, Bool.or_eq_true, beq_iff_eq]
      exact ⟨fun hj => hj.elim (fun hij => Or.inr hij.symm) Or.inl,
        fun hj => hj.elim Or.inr fun hji => Or.inl hji.symm⟩

lemma toList_of_next?_eq_none {a : Agenda} (h : a.next? = none) : a.toList = [] := by
  unfold next? at h
  split at h
  · simp at h
  · rename_i hfront
    split at h
    · simp at h
    · rename_i hback
      rw [toList, hfront, hback, List.append_nil]

lemma toList_of_next? {a b : Agenda} {i : ℕ} (h : a.next? = some (i, b)) :
    a.toList = i :: b.toList := by
  unfold next? at h
  split at h
  · rename_i j rest hfront
    obtain ⟨rfl, rfl⟩ := Prod.mk.inj (Option.some.inj h)
    simp [toList, hfront]
  · rename_i hfront
    split at h
    · rename_i j rest hback
      obtain ⟨rfl, rfl⟩ := Prod.mk.inj (Option.some.inj h)
      simp [toList, hfront, hback]
    · simp at h

lemma waiting_of_next? {a b : Agenda} {i : ℕ} (h : a.next? = some (i, b)) :
    b.waiting = a.waiting.erase i := by
  unfold next? at h
  split at h
  · obtain ⟨rfl, rfl⟩ := Prod.mk.inj (Option.some.inj h)
    rfl
  · split at h
    · obtain ⟨rfl, rfl⟩ := Prod.mk.inj (Option.some.inj h)
      rfl
    · simp at h

lemma Consistent.next? {a b : Agenda} {i : ℕ} (ha : a.Consistent) (h : a.next? = some (i, b)) :
    b.Consistent := by
  have hlist := toList_of_next? h
  have hnodup := ha.nodup
  rw [hlist, List.nodup_cons] at hnodup
  refine ⟨hnodup.2, fun j => ?_⟩
  have hmem : j ∈ a.toList ↔ j = i ∨ j ∈ b.toList := by rw [hlist, List.mem_cons]
  rw [waiting_of_next? h, Std.HashSet.contains_erase, Bool.and_eq_true, ha.contains_iff, hmem]
  constructor
  · rintro ⟨hne, rfl | hj⟩
    · simp at hne
    · exact hj
  · intro hj
    have hne : i ≠ j := fun hij => hnodup.1 (hij ▸ hj)
    exact ⟨by simpa using hne, Or.inr hj⟩

end DeductiveParsing.Agenda
