/-
How the frontier of a tree lies over the tokens.

* `TreeAdjoining.Reads`: the labels of a frontier are the tokens between two places, where the hole
  takes up those of the gap;
* `Reads.append`, `Reads.exists_of_append`: one frontier behind another;
* `Reads.fill`, `Reads.exists_of_fill`: one frontier in the hole of another;
* `reads_iff_map_some`: a frontier without holes over the whole input is the input.
-/
import DeductiveParsing.Inference.TreeCyk
import DeductiveParsing.Proofs.Tree.Frontier

namespace DeductiveParsing

/-! ### Gaps -/

namespace Gap

variable {g h r : Gap}

@[simp] lemma join?_absent_left (h : Gap) : absent.join? h = some h := by
  rw [join?, if_pos rfl]

@[simp] lemma join?_absent_right (g : Gap) : g.join? absent = some g := by
  by_cases hg : g = absent
  · rw [hg, join?_absent_left]
  · rw [join?, if_neg hg, if_pos rfl]

/-- Gaps are joined only if one of them is absent, and the other one remains. -/
lemma join?_eq_some : g.join? h = some r ↔ g = absent ∧ h = r ∨ h = absent ∧ g = r := by
  constructor
  · intro hjoin
    rw [join?] at hjoin
    split at hjoin
    · rename_i hg
      exact Or.inl ⟨hg, Option.some.inj hjoin⟩
    · split at hjoin
      · rename_i hh
        exact Or.inr ⟨hh, Option.some.inj hjoin⟩
      · cases hjoin
  · rintro (⟨rfl, rfl⟩ | ⟨rfl, rfl⟩)
    · exact join?_absent_left h
    · exact join?_absent_right g

/-- There are finitely many gaps within an input. -/
lemma finite_le (n : ℕ) :
    {gap : Gap | (∀ k, gap.start = some k → k ≤ n) ∧ ∀ k, gap.stop = some k → k ≤ n}.Finite := by
  have hplaces : {o : Option ℕ | ∀ k, o = some k → k ≤ n}.Finite := by
    refine (((Set.finite_le_nat n).image some).insert none).subset ?_
    intro o ho
    cases o with
    | none => exact Set.mem_insert _ _
    | some k => exact Set.mem_insert_of_mem _ ⟨k, ho k rfl, rfl⟩
  refine (Set.Finite.image2 Gap.mk hplaces hplaces).subset ?_
  rintro ⟨start, stop⟩ ⟨hstart, hstop⟩
  exact ⟨start, hstart, stop, hstop, rfl⟩

end Gap

open DeductiveParsing.Tree (fillHole)

namespace TreeAdjoining

/-! ### Reading a frontier -/

/-- A frontier read from the place `i` to the place `j`: its labels are the tokens between them,
except for those of the gap, which stand at the only hole. -/
inductive Reads (tokens : List String) : List (Option String) → ℕ → Gap → ℕ → Prop where
  | nil {i : ℕ} (h : i ≤ tokens.length) : Reads tokens [] i .absent i
  | token {a : String} {leaves : List (Option String)} {i j : ℕ} {gap : Gap}
      (h : tokens[i]? = some a) (rest : Reads tokens leaves (i + 1) gap j) :
      Reads tokens (some a :: leaves) i gap j
  | hole {leaves : List (Option String)} {i k j : ℕ} (h : i ≤ k)
      (rest : Reads tokens leaves k .absent j) : Reads tokens (none :: leaves) i ⟨some i, some k⟩ j

namespace Reads

variable {tokens : List String} {leaves leaves' : List (Option String)} {i j k l : ℕ}
  {gap gap' joined : Gap}

/-- The places are in order and within the input. -/
lemma le (h : Reads tokens leaves i gap j) : i ≤ j ∧ j ≤ tokens.length := by
  induction h with
  | nil h => exact ⟨le_rfl, h⟩
  | token _ _ ih => exact ⟨by omega, ih.2⟩
  | hole h _ ih => exact ⟨h.trans ih.1, ih.2⟩

/-- There is a gap exactly if there is a hole, and it lies between the places. -/
lemma gap_cases (h : Reads tokens leaves i gap j) :
    none ∉ leaves ∧ gap = .absent ∨
      none ∈ leaves ∧ ∃ k l, gap = ⟨some k, some l⟩ ∧ i ≤ k ∧ k ≤ l ∧ l ≤ j := by
  induction h with
  | nil => exact Or.inl ⟨List.not_mem_nil, rfl⟩
  | token _ _ ih =>
      rcases ih with ⟨hmem, rfl⟩ | ⟨hmem, k, l, rfl, hik, hkl, hlj⟩
      · exact Or.inl ⟨by simpa using hmem, rfl⟩
      · exact Or.inr ⟨List.mem_cons_of_mem _ hmem, k, l, rfl, by omega, hkl, hlj⟩
  | hole h rest => exact Or.inr ⟨List.mem_cons_self, _, _, rfl, le_rfl, h, rest.le.1⟩

lemma gap_eq_absent (h : Reads tokens leaves i gap j) (hmem : none ∉ leaves) : gap = .absent := by
  rcases h.gap_cases with ⟨-, hgap⟩ | ⟨hmem', -⟩
  · exact hgap
  · exact absurd hmem' hmem

lemma not_mem_of_absent (h : Reads tokens leaves i .absent j) : none ∉ leaves := by
  rcases h.gap_cases with ⟨hmem, -⟩ | ⟨-, k, l, hgap, -⟩
  · exact hmem
  · cases hgap

/-! ### One frontier behind another -/

/-- What two neighbours read, they read together. -/
theorem append (h : Reads tokens leaves i gap k) (h' : Reads tokens leaves' k gap' j)
    (hjoin : gap.join? gap' = some joined) : Reads tokens (leaves ++ leaves') i joined j := by
  induction h generalizing joined with
  | nil =>
      rw [Gap.join?_absent_left, Option.some.injEq] at hjoin
      exact hjoin ▸ h'
  | token htoken _ ih => exact .token htoken (ih h' hjoin)
  | hole hle _ ih =>
      rcases Gap.join?_eq_some.1 hjoin with ⟨hgap, -⟩ | ⟨rfl, rfl⟩
      · cases hgap
      · exact .hole hle (ih h' (Gap.join?_absent_left _))

/-- What is read in one piece is read by two neighbours. -/
theorem exists_of_append (h : Reads tokens (leaves ++ leaves') i joined j) :
    ∃ k gap gap', Reads tokens leaves i gap k ∧ Reads tokens leaves' k gap' j ∧
      gap.join? gap' = some joined := by
  induction leaves generalizing i joined with
  | nil =>
      have hle := h.le
      exact ⟨i, .absent, joined, .nil (hle.1.trans hle.2), h, Gap.join?_absent_left _⟩
  | cons leaf leaves ih =>
      cases h with
      | token htoken rest =>
          obtain ⟨k, gap, gap', hleft, hright, hjoin⟩ := ih rest
          exact ⟨k, gap, gap', .token htoken hleft, hright, hjoin⟩
      | hole hle rest =>
          obtain ⟨k, gap, gap', hleft, hright, hjoin⟩ := ih rest
          have hmem : none ∉ leaves ++ leaves' := rest.not_mem_of_absent
          rw [List.mem_append, not_or] at hmem
          obtain rfl := hleft.gap_eq_absent hmem.1
          obtain rfl := hright.gap_eq_absent hmem.2
          exact ⟨k, _, .absent, .hole hle hleft, hright, Gap.join?_absent_right _⟩

/-! ### One frontier in another -/

lemma flatMap_fillHole_of_not_mem (hmem : none ∉ leaves) (filling : List (Option String)) :
    leaves.flatMap (fillHole filling) = leaves := by
  induction leaves with
  | nil => rfl
  | cons leaf leaves ih =>
      rw [List.mem_cons, not_or] at hmem
      cases leaf with
      | none => exact absurd rfl hmem.1
      | some label =>
          rw [List.flatMap_cons, ih hmem.2]
          rfl

/-- What reads the tokens of the gap takes the place of the hole. -/
theorem fill (h : Reads tokens leaves i ⟨some k, some l⟩ j) (h' : Reads tokens leaves' k gap' l) :
    Reads tokens (leaves.flatMap (fillHole leaves')) i gap' j := by
  generalize hgap : (⟨some k, some l⟩ : Gap) = gap at h
  induction h with
  | nil => cases hgap
  | token htoken _ ih => exact .token htoken (ih hgap)
  | hole _ rest =>
      obtain ⟨⟨⟩, ⟨⟩⟩ := Gap.mk.inj hgap
      rw [List.flatMap_cons, flatMap_fillHole_of_not_mem rest.not_mem_of_absent]
      exact h'.append rest (Gap.join?_absent_right _)

/-- What stands in the place of the only hole reads the tokens of a gap. -/
theorem exists_of_fill (hone : leaves.count none = 1)
    (h : Reads tokens (leaves.flatMap (fillHole leaves')) i gap' j) :
    ∃ k l, Reads tokens leaves i ⟨some k, some l⟩ j ∧ Reads tokens leaves' k gap' l := by
  induction leaves generalizing i with
  | nil => simp at hone
  | cons leaf leaves ih =>
      rw [List.flatMap_cons] at h
      cases leaf with
      | some label =>
          cases h with
          | token htoken rest =>
              obtain ⟨k, l, hleaves, hfilling⟩ := ih (by simpa using hone) rest
              exact ⟨k, l, .token htoken hleaves, hfilling⟩
      | none =>
          -- behind the only hole there is none
          have hmem : none ∉ leaves := by
            rw [← List.count_eq_zero]
            simpa using hone
          rw [flatMap_fillHole_of_not_mem hmem] at h
          obtain ⟨l, gap, gap'', hfilling, hbehind, hjoin⟩ := h.exists_of_append
          obtain rfl := hbehind.gap_eq_absent hmem
          rw [Gap.join?_absent_right, Option.some.injEq] at hjoin
          exact ⟨i, l, .hole hfilling.le.1 hbehind, hjoin ▸ hfilling⟩

end Reads

/-- A frontier without holes that reads everything behind a place is what stands there. -/
theorem reads_iff_map_some {tokens : List String} {leaves : List (Option String)} :
    Reads tokens leaves 0 .absent tokens.length ↔ leaves = tokens.map some := by
  have hreads : ∀ i ≤ tokens.length,
      (Reads tokens leaves i .absent tokens.length ↔ leaves = (tokens.drop i).map some) := by
    induction leaves with
    | nil =>
        intro i hi
        constructor
        · intro h
          cases h
          rw [List.drop_length, List.map_nil]
        · intro h
          have hlength : tokens.length ≤ i := by simpa using h
          obtain rfl := le_antisymm hi hlength
          exact .nil le_rfl
    | cons leaf leaves ih =>
        intro i hi
        constructor
        · intro h
          cases h with
          | token htoken rest =>
              obtain ⟨hlt, rfl⟩ := List.getElem?_eq_some_iff.1 htoken
              rw [List.drop_eq_getElem_cons hlt, List.map_cons, (ih (i + 1) hlt).1 rest]
        · intro h
          have hlt : i < tokens.length := by
            by_contra hge
            rw [List.drop_of_length_le (by omega)] at h
            cases h
          rw [List.drop_eq_getElem_cons hlt, List.map_cons] at h
          obtain ⟨rfl, hrest⟩ := List.cons.inj h
          exact .token (List.getElem?_eq_getElem hlt) ((ih (i + 1) hlt).2 hrest)
  simpa using hreads 0 (Nat.zero_le _)

end TreeAdjoining

end DeductiveParsing
