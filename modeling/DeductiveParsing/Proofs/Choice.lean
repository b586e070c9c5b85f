/-
What choices from lists contain.

* `mem_selections`: the selections of `k` elements are exactly the sublists of length `k`;
* `pairwise_selections`: the selections from an increasing list are in lexicographic order;
* `mem_walks_length`: the walks through a whole list are exactly the orders of its elements that
  lead from state to state;
* `mem_distinct`: leaving out repetitions leaves out no element;
* `finite_lists`, `finite_forall₂`: sets of finitely many lists.
-/
import Mathlib.Data.Set.Finite.List
import Mathlib.Tactic
import DeductiveParsing.Choice.Distinct
import DeductiveParsing.Choice.Product

namespace DeductiveParsing.Choice

variable {α σ : Type}

/-! ### Selections -/

/-- As long as there are spare elements enough to leave out all that are not taken, the number of
spare elements does not restrict a selection. -/
lemma mem_selectionsWithin {spare k : ℕ} {l xs : List α} (h : xs.length ≤ k + spare) :
    l ∈ selectionsWithin spare k xs ↔ l.Sublist xs ∧ l.length = k := by
  induction xs generalizing spare k l with
  | nil =>
      cases k with
      | zero => simp [selectionsWithin]
      | succ k =>
          simp only [selectionsWithin, List.not_mem_nil, List.sublist_nil, false_iff]
          rintro ⟨rfl, hl⟩
          simp at hl
  | cons x xs ih =>
      cases k with
      | zero =>
          simp only [selectionsWithin, List.mem_singleton, List.length_eq_zero_iff]
          exact ⟨fun hl => ⟨hl ▸ List.nil_sublist _, hl⟩, fun hl => hl.2⟩
      | succ k =>
          simp only [List.length_cons] at h
          have htake : ∀ r, r ∈ selectionsWithin spare k xs ↔ r.Sublist xs ∧ r.length = k :=
            fun r => ih (by omega)
          simp only [selectionsWithin, List.mem_append, List.mem_map, htake]
          constructor
          · rintro (⟨r, ⟨hr, hlen⟩, rfl⟩ | hleave)
            · exact ⟨hr.cons_cons x, by simp [hlen]⟩
            · cases spare with
              | zero => simp at hleave
              | succ spare =>
                  obtain ⟨hs, hlen⟩ := (ih (by omega)).1 hleave
                  exact ⟨hs.cons x, hlen⟩
          · rintro ⟨hs, hlen⟩
            rcases List.sublist_cons_iff.1 hs with hs | ⟨r, rfl, hr⟩
            · right
              cases spare with
              | zero => have := hs.length_le; omega
              | succ spare => exact (ih (by omega)).2 ⟨hs, hlen⟩
            · exact Or.inl ⟨r, ⟨hr, by simpa using hlen⟩, rfl⟩

/-- The selections of `k` elements are the sublists of length `k`. -/
theorem mem_selections {k : ℕ} {l xs : List α} :
    l ∈ selections k xs ↔ l.Sublist xs ∧ l.length = k := by
  rw [selections]
  split
  · rename_i hshort
    simp only [List.not_mem_nil, false_iff]
    rintro ⟨hs, rfl⟩
    have := hs.length_le
    omega
  · exact mem_selectionsWithin (by omega)

/-- Selections from an increasing list are in lexicographic order: those with the first element
stand before those without it. -/
lemma pairwise_selectionsWithin {spare k : ℕ} {xs : List ℕ} (hxs : xs.Pairwise (· < ·))
    (hspare : xs.length ≤ k + spare) : (selectionsWithin spare k xs).Pairwise (· < ·) := by
  induction xs generalizing spare k with
  | nil => cases k <;> simp [selectionsWithin]
  | cons x xs ih =>
      obtain ⟨hx, hxs⟩ := List.pairwise_cons.1 hxs
      rw [List.length_cons] at hspare
      cases k with
      | zero => simp [selectionsWithin]
      | succ k =>
          have hwith : ((selectionsWithin spare k xs).map (x :: ·)).Pairwise (· < ·) :=
            List.pairwise_map.2 ((ih hxs (by omega)).imp List.Lex.cons)
          cases spare with
          | zero => simpa [selectionsWithin] using hwith
          | succ spare =>
              rw [selectionsWithin, List.pairwise_append]
              refine ⟨hwith, ih hxs (by omega), fun l hl m hm => ?_⟩
              obtain ⟨rest, -, rfl⟩ := List.mem_map.1 hl
              obtain ⟨hsub, hlen⟩ := (mem_selectionsWithin (by omega)).1 hm
              cases m with
              | nil => simp at hlen
              | cons y m => exact List.Lex.rel (hx y (hsub.subset List.mem_cons_self))

lemma pairwise_selections {k : ℕ} {xs : List ℕ} (h : xs.Pairwise (· < ·)) :
    (selections k xs).Pairwise (· < ·) := by
  rw [selections]
  split
  · exact List.Pairwise.nil
  · exact pairwise_selectionsWithin h (by omega)

/-! ### Walks -/

/-- A split takes one element out of the middle of a list. -/
lemma mem_splits {x : α} {rest xs : List α} :
    (x, rest) ∈ splits xs ↔
      ∃ before behind, xs = before ++ x :: behind ∧ rest = before ++ behind := by
  induction xs generalizing rest with
  | nil => simp [splits]
  | cons y xs ih =>
      simp only [splits, List.mem_cons, Prod.mk.injEq, List.mem_map, Prod.exists]
      constructor
      · rintro (⟨rfl, rfl⟩ | ⟨z, r, hz, rfl, rfl⟩)
        · exact ⟨[], rest, rfl, rfl⟩
        · obtain ⟨before, behind, rfl, rfl⟩ := ih.1 hz
          exact ⟨y :: before, behind, rfl, rfl⟩
      · rintro ⟨before, behind, heq, rfl⟩
        cases before with
        | nil =>
            obtain ⟨rfl, rfl⟩ := List.cons.inj heq
            exact Or.inl ⟨rfl, rfl⟩
        | cons z before =>
            obtain ⟨rfl, rfl⟩ := List.cons.inj heq
            exact Or.inr ⟨x, before ++ behind, ih.2 ⟨before, behind, rfl, rfl⟩, rfl, rfl⟩

/-- A walk of `n` steps takes `n` elements out of a list, in any order in which each of them leads
into a next state. -/
lemma mem_walks {step : σ → α → Option σ} {n : ℕ} {s : σ} {l xs : List α} :
    l ∈ walks step n s xs ↔
      l.length = n ∧ (∃ rest, (l ++ rest).Perm xs) ∧ (l.foldlM step s).isSome := by
  induction n generalizing s l xs with
  | zero =>
      simp only [walks, List.mem_singleton, List.length_eq_zero_iff]
      constructor
      · rintro rfl
        exact ⟨rfl, ⟨xs, List.Perm.refl xs⟩, rfl⟩
      · exact fun h => h.1
  | succ n ih =>
      simp only [walks, List.mem_flatMap, Prod.exists]
      constructor
      · rintro ⟨x, rest, hsplit, hl⟩
        obtain ⟨before, behind, rfl, rfl⟩ := mem_splits.1 hsplit
        cases hnext : step s x with
        | none => simp [hnext] at hl
        | some next =>
            simp only [hnext, List.mem_map] at hl
            obtain ⟨r, hr, rfl⟩ := hl
            obtain ⟨hlen, ⟨left, hperm⟩, hsome⟩ := ih.1 hr
            refine ⟨by simp [hlen], ⟨left, ?_⟩, by simpa [hnext] using hsome⟩
            exact (hperm.cons x).trans List.perm_middle.symm
      · rintro ⟨hlen, ⟨left, hperm⟩, hsome⟩
        cases l with
        | nil => simp at hlen
        | cons x r =>
            have hx : x ∈ xs := hperm.subset (by simp)
            obtain ⟨before, behind, rfl⟩ := List.append_of_mem hx
            refine ⟨x, before ++ behind, mem_splits.2 ⟨before, behind, rfl, rfl⟩, ?_⟩
            cases hnext : step s x with
            | none => simp [hnext] at hsome
            | some next =>
                have hrest : (r ++ left).Perm (before ++ behind) :=
                  (hperm.trans List.perm_middle).cons_inv
                simp only [List.mem_map]
                exact ⟨r, ih.2 ⟨by simpa using hlen, ⟨left, hrest⟩, by simpa [hnext] using hsome⟩,
                  rfl⟩

/-- A walk through a whole list is an order of its elements. -/
theorem mem_walks_length {step : σ → α → Option σ} {s : σ} {l xs : List α} :
    l ∈ walks step xs.length s xs ↔ l.Perm xs ∧ (l.foldlM step s).isSome := by
  rw [mem_walks]
  constructor
  · rintro ⟨hlen, ⟨rest, hperm⟩, hsome⟩
    have hnil : rest = [] := by
      have := hperm.length_eq
      rw [List.length_append] at this
      exact List.length_eq_zero_iff.1 (by omega)
    rw [hnil, List.append_nil] at hperm
    exact ⟨hperm, hsome⟩
  · rintro ⟨hperm, hsome⟩
    exact ⟨hperm.length_eq, ⟨[], by simpa using hperm⟩, hsome⟩

/-! ### Lists without repetitions -/

section Distinct

variable {β : Type} [DecidableEq β] {key : α → β} {x : α} {xs : List α}

lemma mem_of_mem_distinctBy (h : x ∈ distinctBy key xs) : x ∈ xs := by
  induction xs with
  | nil => exact h
  | cons y ys ih =>
      rcases List.mem_cons.1 h with rfl | h
      · exact List.mem_cons_self
      · exact List.mem_cons_of_mem _ (ih (List.mem_filter.1 h).1)

/-- Among elements with one key one is kept. -/
lemma exists_mem_distinctBy (h : x ∈ xs) : ∃ y ∈ distinctBy key xs, key y = key x := by
  induction xs with
  | nil => simp at h
  | cons y xs ih =>
      rw [distinctBy]
      by_cases hkey : key y = key x
      · exact ⟨y, List.mem_cons_self, hkey⟩
      · have hx : x ∈ xs := (List.mem_cons.1 h).resolve_left fun heq => hkey (heq ▸ rfl)
        obtain ⟨z, hz, hzx⟩ := ih hx
        refine ⟨z, List.mem_cons_of_mem _ (List.mem_filter.2 ⟨hz, ?_⟩), hzx⟩
        simpa [hzx] using Ne.symm hkey

lemma mem_distinct [DecidableEq α] : x ∈ distinct xs ↔ x ∈ xs := by
  refine ⟨mem_of_mem_distinctBy, fun h => ?_⟩
  obtain ⟨y, hy, hyx⟩ : ∃ y ∈ distinct xs, id y = id x := exists_mem_distinctBy h
  rw [id_eq, id_eq] at hyx
  exact hyx ▸ hy

lemma nodup_distinctBy (key : α → β) (xs : List α) : ((distinctBy key xs).map key).Nodup := by
  induction xs with
  | nil => exact List.nodup_nil
  | cons x xs ih =>
      rw [distinctBy, List.map_cons, List.nodup_cons]
      refine ⟨fun hmem => ?_, ih.sublist (List.filter_sublist.map key)⟩
      obtain ⟨y, hy, hyx⟩ := List.mem_map.1 hmem
      simpa [hyx] using (List.mem_filter.1 hy).2

lemma nodup_distinct [DecidableEq α] (xs : List α) : (distinct xs).Nodup := by
  have h := nodup_distinctBy id xs
  rwa [List.map_id] at h

end Distinct

/-! ### Finitely many lists -/

/-- There are finitely many short lists over finitely many elements. -/
lemma finite_lists (alphabet : List α) (n : ℕ) :
    {l : List α | l.length ≤ n ∧ ∀ x ∈ l, x ∈ alphabet}.Finite := by
  have halphabet : Finite {x // x ∈ alphabet} := (List.finite_toSet alphabet).to_subtype
  have hfinite := (List.finite_length_le {x // x ∈ alphabet} n).image (List.map Subtype.val)
  refine hfinite.subset ?_
  rintro l ⟨hlen, hmem⟩
  lift l to List {x // x ∈ alphabet} using hmem
  exact ⟨l, by simpa using hlen, rfl⟩

/-- There are finitely many lists with given finite sets for their elements. -/
lemma finite_forall₂ {β : Type} {T : α → Set β} {l : List α} (h : ∀ a ∈ l, (T a).Finite) :
    {bs | List.Forall₂ (fun a b => b ∈ T a) l bs}.Finite := by
  induction l with
  | nil => exact (Set.finite_singleton []).subset fun bs hbs => List.forall₂_nil_left_iff.1 hbs
  | cons a l ih =>
      refine (Set.Finite.image2 List.cons (h a List.mem_cons_self)
        (ih fun b hb => h b (List.mem_cons_of_mem _ hb))).subset ?_
      rintro bs hbs
      cases hbs with
      | cons hb hrest => exact ⟨_, hb, _, hrest, rfl⟩

end DeductiveParsing.Choice
