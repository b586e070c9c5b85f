/-
The choices of other positions that a rule is tried on.

* `State.increasing`: increasing positions one by one, where the first one leaves room for the
  others;
* `State.otherPositions_eq`: the choices of other positions are these;
* `State.positionsFrom?`: the search for them in a chart, in which differences and items need not
  exist;
* `State.otherPositions_exact`: the choices, their order, and that the search misses nothing.
-/
import Mathlib.Data.Nat.PSub
import DeductiveParsing.Proofs.Deduction.Saturation

namespace DeductiveParsing.Deduction.State

variable {W : Type} {c : Chart W} {size first needed k place : ℕ} {others : List ℕ}

/-! ### Increasing positions -/

/-- The choices of `k` positions from `place` on, other than `first`. The first position leaves
room for those that come behind it. -/
def increasing (size first : ℕ) : ℕ → ℕ → List (List ℕ)
  | 0, _ => [[]]
  | k + 1, place => (List.range' place (size - k - place)).flatMap fun j =>
      if j = first then [] else (increasing size first k (j + 1)).map (j :: ·)

/-- There are not more increasing numbers than there is room for. -/
lemma length_le_of_pairwise_lt (h : others.Pairwise (· < ·))
    (hrange : ∀ i ∈ others, place ≤ i ∧ i < size) : others.length ≤ size - place := by
  have hsub : others ⊆ List.range' place (size - place) := by
    intro i hi
    rw [List.mem_range'_1]
    have := hrange i hi
    omega
  simpa using (h.nodup.subperm hsub).length_le

lemma mem_increasing : others ∈ increasing size first k place ↔
    others.Pairwise (· < ·) ∧ (∀ i ∈ others, place ≤ i ∧ i < size ∧ i ≠ first) ∧
      others.length = k := by
  induction k generalizing place others with
  | zero =>
      rw [increasing, List.mem_singleton, List.length_eq_zero_iff]
      constructor
      · rintro rfl
        exact ⟨.nil, nofun, rfl⟩
      · exact fun h => h.2.2
  | succ k ih =>
      rw [increasing, List.mem_flatMap]
      constructor
      · rintro ⟨j, hj, h⟩
        rw [List.mem_range'_1] at hj
        split at h
        · cases h
        rename_i hne
        obtain ⟨rest, hrest, rfl⟩ := List.mem_map.1 h
        obtain ⟨hsorted, hrange, hlen⟩ := ih.1 hrest
        refine ⟨List.pairwise_cons.2 ⟨fun i hi => (hrange i hi).1, hsorted⟩,
          List.forall_mem_cons.2 ⟨⟨hj.1, by omega, hne⟩, fun i hi => ?_⟩, by simp [hlen]⟩
        have := hrange i hi
        omega
      · rintro ⟨hsorted, hrange, hlen⟩
        cases others with
        | nil => simp at hlen
        | cons j rest =>
            obtain ⟨hj, hsorted⟩ := List.pairwise_cons.1 hsorted
            obtain ⟨⟨hplace, hsize, hne⟩, hrange⟩ := List.forall_mem_cons.1 hrange
            have hlen : rest.length = k := by simpa using hlen
            have hbehind : ∀ i ∈ rest, j + 1 ≤ i ∧ i < size ∧ i ≠ first :=
              fun i hi => ⟨hj i hi, (hrange i hi).2⟩
            -- those behind the first one need the room that it leaves
            have hroom := length_le_of_pairwise_lt hsorted
              fun i hi => ⟨(hbehind i hi).1, (hbehind i hi).2.1⟩
            refine ⟨j, by rw [List.mem_range'_1]; omega, ?_⟩
            rw [if_neg hne]
            exact List.mem_map_of_mem (ih.2 ⟨hsorted, hbehind, hlen⟩)

lemma pairwise_increasing (size first k place : ℕ) :
    (increasing size first k place).Pairwise (· < ·) := by
  induction k generalizing place with
  | zero => exact List.pairwise_singleton _ _
  | succ k ih =>
      rw [increasing, List.pairwise_flatMap]
      constructor
      · intro j _
        split
        · exact List.Pairwise.nil
        · exact List.pairwise_map.2 ((ih (j + 1)).imp List.Lex.cons)
      · refine (List.pairwise_lt_range' 1).imp fun {j j'} hlt l hl m hm => ?_
        split at hl
        · cases hl
        split at hm
        · cases hm
        obtain ⟨rest, -, rfl⟩ := List.mem_map.1 hl
        obtain ⟨rest', -, rfl⟩ := List.mem_map.1 hm
        exact List.Lex.rel hlt

lemma pairwise_otherPositions (size first needed : ℕ) :
    (otherPositions size first needed).Pairwise (· < ·) := by
  rw [otherPositions]
  split
  · exact List.pairwise_singleton _ _
  · exact Choice.pairwise_selections (List.pairwise_lt_range.filter _)

/-- The choices of other positions are the increasing ones from the first position on, since both
are in lexicographic order. -/
lemma otherPositions_eq (size first needed : ℕ) :
    otherPositions size first needed = increasing size first needed 0 := by
  have hleft := pairwise_otherPositions size first needed
  have hright := pairwise_increasing size first needed 0
  refine List.Perm.eq_of_pairwise (fun _ _ _ _ h h' => absurd h (lt_asymm h')) hleft hright ?_
  refine (List.perm_ext_iff_of_nodup hleft.nodup hright.nodup).2 fun others => ?_
  simp [mem_otherPositions, mem_increasing]

/-! ### The search -/

/-- The search for the choices of `needed` positions in a chart whose items differ from that at
`first`. Those in `chosen` have been taken, the others come from `place` on. It fails if it needs
the difference of a number and a larger one, or the item at a position behind the last one. -/
def positionsFrom? (c : Chart W) (first needed place : ℕ) (chosen : List ℕ) :
    Option (List (List ℕ)) :=
  match _hremaining : needed.psub chosen.length with
  | none => none
  | some remaining =>
    if _hzero : remaining = 0 then some [chosen]
    else if c.size < remaining then some []
    else do
      let last ← c.size.psub remaining
      -- the positions from `place` to `last`, if there are any
      let choices ← (List.range' place (last + 1 - place)).mapM fun j => do
        if (← c.item? j).form = (← c.item? first).form then some []
        else positionsFrom? c first needed (j + 1) (chosen ++ [j])
      return choices.flatten
termination_by needed - chosen.length
decreasing_by
  have := Nat.psub_eq_some.1 _hremaining
  rw [List.length_append, List.length_singleton]
  omega

/-- In a chart whose forms are pairwise different, only the first item is equal to itself. -/
lemma exists_items_form_eq_iff
    (hc : ∀ i j form, c.form? i = some form → c.form? j = some form → i = j) {i j : ℕ}
    (hi : i < c.size) (hj : j < c.size) :
    ∃ x y, c.item? i = some x ∧ c.item? j = some y ∧ (x.form = y.form ↔ i = j) := by
  obtain ⟨x, hx⟩ := Chart.lt_size_iff.1 hi
  obtain ⟨y, hy⟩ := Chart.lt_size_iff.1 hj
  refine ⟨x, y, hx, hy, fun h => hc i j y.form ?_ ?_, ?_⟩
  · rw [Chart.form?, hx, Option.map_some, h]
  · rw [Chart.form?, hy, Option.map_some]
  · rintro rfl
    rw [Option.some.inj (hx.symm.trans hy)]

/-- The search finds the increasing positions behind those that have been taken, and misses no
difference and no item. The induction is on the number of positions that are left to take. -/
theorem positionsFrom?_eq
    (hc : ∀ i j form, c.form? i = some form → c.form? j = some form → i = j)
    (hfirst : first < c.size) (place : ℕ) (chosen : List ℕ)
    (hneeded : needed = chosen.length + k) :
    positionsFrom? c first needed place chosen =
      some ((increasing c.size first k place).map (chosen ++ ·)) := by
  induction k generalizing place chosen with
  | zero =>
      have hremaining : needed.psub chosen.length = some 0 := Nat.psub_eq_some.2 (by omega)
      rw [positionsFrom?.eq_def, hremaining]
      simp [increasing]
  | succ k ih =>
      have hremaining : needed.psub chosen.length = some (k + 1) := Nat.psub_eq_some.2 (by omega)
      rw [positionsFrom?.eq_def, hremaining]
      dsimp only
      rw [dif_neg (Nat.succ_ne_zero k), increasing]
      split
      · rw [show c.size - k - place = 0 by omega]
        rfl
      rename_i hroom
      have hlast : c.size.psub (k + 1) = some (c.size - (k + 1)) := Nat.psub_eq_sub (by omega)
      have hchoices : ((List.range' place (c.size - k - place)).mapM fun j => do
          if (← c.item? j).form = (← c.item? first).form then some []
          else positionsFrom? c first needed (j + 1) (chosen ++ [j])) =
          some ((List.range' place (c.size - k - place)).map fun j =>
            (if j = first then [] else (increasing c.size first k (j + 1)).map (j :: ·)).map
              (chosen ++ ·)) := by
        rw [mapM_eq_some_iff, List.map_map]
        refine List.map_congr_left fun j hj => ?_
        rw [List.mem_range'_1] at hj
        obtain ⟨x, y, hx, hy, hsame⟩ :=
          exists_items_form_eq_iff hc (show j < c.size by omega) hfirst
        have hbehind := ih (j + 1) (chosen ++ [j])
          (by rw [hneeded, List.length_append, List.length_singleton]; omega)
        simp only [hx, hy, Option.bind_eq_bind, Option.bind_some, hsame, hbehind,
          Function.comp_apply]
        split <;> simp
      rw [hlast, Option.bind_eq_bind, Option.bind_some,
        show c.size - (k + 1) + 1 - place = c.size - k - place by omega, hchoices,
        Option.bind_eq_bind, Option.bind_some, List.map_flatMap, List.flatMap_def]
      rfl

/-- The choices of other positions are all strictly increasing lists of that many positions other
than the first one, in lexicographic order. The search for them in a chart with pairwise different
forms takes no number off a smaller one and looks up no item behind the last one. -/
theorem otherPositions_exact
    (hc : ∀ i j form, c.form? i = some form → c.form? j = some form → i = j)
    (hfirst : first < c.size) (needed : ℕ) :
    (∀ others, others ∈ otherPositions c.size first needed ↔
        others.Pairwise (· < ·) ∧ (∀ i ∈ others, i < c.size ∧ i ≠ first) ∧
          others.length = needed) ∧
      (otherPositions c.size first needed).Pairwise (· < ·) ∧
      positionsFrom? c first needed 0 [] = some (otherPositions c.size first needed) := by
  refine ⟨fun _ => mem_otherPositions, pairwise_otherPositions _ _ _, ?_⟩
  rw [positionsFrom?_eq hc hfirst 0 [] (Nat.zero_add needed).symm, otherPositions_eq]
  simp

/-- A chart of the first numbers. -/
def numbers : ℕ → Chart W
  | 0 => .empty
  | n + 1 => (numbers n).push ⟨[.index n], none, []⟩ ⟨"", []⟩

lemma size_numbers (n : ℕ) : (numbers n : Chart W).size = n := by
  induction n with
  | zero => rfl
  | succ n ih => rw [numbers, Chart.size_push, ih]

lemma form?_numbers (n i : ℕ) :
    (numbers n : Chart W).form? i = if i < n then some [.index i] else none := by
  induction n with
  | zero => simp [numbers, Chart.form?]
  | succ n ih =>
      rw [numbers, Chart.form?, Chart.item?_push, size_numbers]
      rw [Chart.form?] at ih
      split <;> grind

lemma eq_of_form?_numbers {n i j : ℕ} {form : Form}
    (hi : (numbers n : Chart W).form? i = some form)
    (hj : (numbers n : Chart W).form? j = some form) : i = j := by
  rw [form?_numbers] at hi hj
  grind

/-- In a chart of four numbers the second one is followed by two others in three ways, by all others
in one way and by four others in no way. -/
theorem otherPositions_exact_numbers :
    positionsFrom? (numbers 4 : Chart Float) 1 2 0 [] = some [[0, 2], [0, 3], [2, 3]] ∧
      positionsFrom? (numbers 4 : Chart Float) 1 3 0 [] = some [[0, 2, 3]] ∧
      positionsFrom? (numbers 4 : Chart Float) 1 4 0 [] = some [] := by
  have hfirst : 1 < (numbers 4 : Chart Float).size := by rw [size_numbers]; decide
  have h := otherPositions_exact (fun _ _ _ => eq_of_form?_numbers) hfirst
  rw [size_numbers] at h
  exact ⟨(h 2).2.2.trans (by decide), (h 3).2.2.trans (by decide), (h 4).2.2.trans (by decide)⟩

end DeductiveParsing.Deduction.State
