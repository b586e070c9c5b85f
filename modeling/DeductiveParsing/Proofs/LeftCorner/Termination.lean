/-
Runs of left-corner parsing come to an end where the mark is on no right-hand side.

* `LeftCorner.IsCut`: how many marks cut a stack into parts of bounded length;
* `LeftCorner.Fits`: a step completes a symbol where it takes the left-hand side of a production from
  the stack of those that have been begun, so both stacks together are no longer than the input, and
  every production that has been begun leaves a mark and a bounded number of symbols;
* `LeftCorner.finite_fits`, `LeftCorner.bounds`: so there are finitely many stacks.
-/
import DeductiveParsing.Proofs.Deduction.Termination
import DeductiveParsing.Proofs.LeftCorner.Rules

namespace DeductiveParsing.LeftCorner

open ContextFree
open LeftCornerRule (mark)

variable {W : Type} {g : Grammar} {tokens predicted : List String} {s s' : Stacks} {m k : ℕ}
  {b : String}

/-! ### Marks -/

/-- Whether `k` marks cut a stack into parts of at most `m` symbols, of which only the last one may
have marks itself. -/
inductive IsCut (m : ℕ) : List String → ℕ → Prop
  | last {names : List String} (hnames : names.length ≤ m) : IsCut m names 0
  | mark {names predicted : List String} {k : ℕ} (hnames : names.length ≤ m)
      (hplain : LeftCornerRule.mark ∉ names) (h : IsCut m predicted k) :
      IsCut m (names ++ LeftCornerRule.mark :: predicted) (k + 1)

lemma IsCut.length_le (h : IsCut m predicted k) : predicted.length ≤ (m + 1) * (k + 1) := by
  induction h with
  | last hnames => omega
  | @mark names predicted k hnames _ _ ih =>
      rw [List.length_append, List.length_cons]
      have hsum : (m + 1) * (k + 1 + 1) = (m + 1) * (k + 1) + (m + 1) := Nat.mul_succ _ _
      omega

/-- A symbol is taken from the first part. -/
lemma IsCut.tail (h : IsCut m (b :: predicted) k) (hb : b ≠ LeftCornerRule.mark) :
    IsCut m predicted k := by
  generalize hstack : b :: predicted = stack at h
  cases h with
  | last hnames =>
      rw [← hstack, List.length_cons] at hnames
      exact .last (by omega)
  | @mark names rest k hnames hplain h =>
      cases names with
      | nil => exact absurd (List.cons.inj hstack).1 hb
      | cons c names =>
          obtain ⟨-, rfl⟩ := List.cons.inj hstack
          rw [List.length_cons] at hnames
          exact .mark (by omega) (fun hmem => hplain (List.mem_cons_of_mem c hmem)) h

/-- A mark on top stands behind an empty part. -/
lemma IsCut.tail_mark (h : IsCut m (LeftCornerRule.mark :: predicted) (k + 1)) :
    IsCut m predicted k := by
  generalize hstack : LeftCornerRule.mark :: predicted = stack at h
  cases h with
  | @mark names rest k hnames hplain h =>
      cases names with
      | nil => exact (List.cons.inj hstack).2 ▸ h
      | cons c names => exact absurd ((List.cons.inj hstack).1 ▸ List.mem_cons_self) hplain

/-! ### Steps -/

/-- The names that can be on stacks. -/
def alphabet (g : Grammar) (tokens : List String) : List String :=
  mark :: g.start :: tokens ++ g.lhsNames ++ g.productions.flatMap Production.rhsNames

/-- The length of all right-hand sides together, but at least one. -/
def width (g : Grammar) : ℕ := (g.productions.map fun p => p.rhsNames.length).sum + 1

lemma length_rhsNames_le {p : Production} (hp : p ∈ g.productions) :
    p.rhsNames.length ≤ width g := by
  have hsum : p.rhsNames.length ≤ (g.productions.map fun p => p.rhsNames.length).sum :=
    List.le_sum_of_mem (List.mem_map_of_mem hp)
  exact hsum.trans (Nat.le_succ _)

lemma mark_mem_alphabet : mark ∈ alphabet g tokens := by simp [alphabet]

lemma lhs_mem_alphabet {p : Production} (hp : p ∈ g.productions) : p.lhs ∈ alphabet g tokens :=
  List.mem_append_left _ (List.mem_append_right _ (List.mem_map_of_mem hp))

lemma rhsNames_subset_alphabet {p : Production} (hp : p ∈ g.productions) :
    p.rhsNames ⊆ alphabet g tokens :=
  fun _ ha => List.mem_append_right _ (List.mem_flatMap.2 ⟨p, hp, ha⟩)

/-- Whether stacks are bounded by the input: a symbol is completed for each token, or production that
has been begun, and this has left a mark. -/
structure Fits (g : Grammar) (tokens : List String) (s : Stacks) : Prop where
  length_le : s.completed.length + s.begun.length ≤ tokens.length
  isCut : IsCut (width g) s.predicted s.begun.length
  subset_alphabet : s.completed ++ s.predicted ++ s.begun ⊆ alphabet g tokens

lemma fits_initial : Fits g tokens (initial g tokens) where
  length_le := le_rfl
  isCut := .last (by simp [initial, width])
  subset_alphabet := by
    have htokens : tokens ⊆ alphabet g tokens := fun a ha => by simp [alphabet, ha]
    have hstart : g.start ∈ alphabet g tokens := by simp [alphabet]
    simpa [initial] using ⟨htokens, hstart⟩

/-- Steps keep the stacks bounded. -/
lemma Fits.step (hmark : ∀ p ∈ g.productions, mark ∉ p.rhsNames) (h : Fits g tokens s)
    (hstep : Step g s s') : Fits g tokens s' := by
  obtain ⟨hlength, hcut, hnames⟩ := h
  cases hstep with
  | @reduce p x b names completed predicted begun hp hrhs hb =>
      have hwidth := length_rhsNames_le hp
      have hplain := hmark p hp
      have hrest : p.rhsNames ⊆ alphabet g tokens := rhsNames_subset_alphabet hp
      rw [hrhs] at hwidth hplain hrest
      simp only [List.length_cons] at hlength hwidth
      simp only [List.append_subset, List.cons_subset] at hnames hrest
      obtain ⟨⟨⟨-, hcompleted⟩, hb, hpredicted⟩, hbegun⟩ := hnames
      refine ⟨by simp only [List.length_cons]; omega, ?_, ?_⟩
      · exact .mark (by omega) (fun hmem => hplain (List.mem_cons_of_mem x hmem)) hcut
      · simp only [List.append_subset, List.cons_subset]
        exact ⟨⟨hcompleted, hrest.2, mark_mem_alphabet, hb, hpredicted⟩, lhs_mem_alphabet hp, hbegun⟩
  | @remove x completed predicted begun hx =>
      simp only [List.length_cons] at hlength
      simp only [List.append_subset, List.cons_subset] at hnames
      obtain ⟨⟨⟨-, hcompleted⟩, -, hpredicted⟩, hbegun⟩ := hnames
      refine ⟨by simp only; omega, hcut.tail hx, ?_⟩
      simp only [List.append_subset]
      exact ⟨⟨hcompleted, hpredicted⟩, hbegun⟩
  | @move a completed predicted begun =>
      simp only [List.length_cons] at hlength
      simp only [List.append_subset, List.cons_subset] at hnames
      obtain ⟨⟨hcompleted, -, hpredicted⟩, ha, hbegun⟩ := hnames
      refine ⟨by simp only [List.length_cons]; omega, hcut.tail_mark, ?_⟩
      simp only [List.append_subset, List.cons_subset]
      exact ⟨⟨⟨ha, hcompleted⟩, hpredicted⟩, hbegun⟩

/-! ### Bounds -/

/-- There are finitely many stacks that are bounded by an input. -/
lemma finite_fits (g : Grammar) (tokens : List String) : {s | Fits g tokens s}.Finite := by
  have hlists := Choice.finite_lists (alphabet g tokens)
  refine ((((hlists tokens.length).prod (hlists ((width g + 1) * (tokens.length + 1)))).prod
    (hlists tokens.length)).image fun q => ⟨q.1.1, q.1.2, q.2⟩).subset ?_
  rintro ⟨completed, predicted, begun⟩ ⟨hlength, hcut, hnames⟩
  simp only [List.append_subset] at hlength hnames
  obtain ⟨⟨hcompleted, hpredicted⟩, hbegun⟩ := hnames
  have hmul : (width g + 1) * (begun.length + 1) ≤ (width g + 1) * (tokens.length + 1) :=
    Nat.mul_le_mul_left _ (by omega)
  exact ⟨((completed, predicted), begun), ⟨⟨⟨(Nat.le_add_right _ _).trans hlength, hcompleted⟩,
    hcut.length_le.trans hmul, hpredicted⟩, (Nat.le_add_left _ _).trans hlength, hbegun⟩, rfl⟩

/-- Bounds for a run, if the mark is on no right-hand side. -/
noncomputable def bounds [Weight W] {schema : Schema W}
    (hmark : ∀ p ∈ g.productions, mark ∉ p.rhsNames)
    (hschema : Schema.leftCorner g tokens = .ok schema) : schema.Bounds :=
  .ofForms ((finite_fits g tokens).image form)
    (fun a ha x hx => by
      rw [schema_eq hschema] at ha
      obtain rfl := List.mem_singleton.1 ha
      obtain rfl := List.mem_singleton.1 hx
      exact ⟨⟨_, fits_initial, rfl⟩, rfl⟩)
    fun rule hrule xs f hxs hf y hy => by
      obtain ⟨r, rfl, hr⟩ := (mem_rules hschema).1 hrule
      obtain ⟨hlen, hf⟩ := Rule.fire?_eq_some.1 hf
      obtain ⟨x, rfl⟩ := List.length_eq_one_iff.1 hlen
      obtain ⟨s, hs, hx⟩ := hxs x List.mem_cons_self
      obtain ⟨s', rfl, hstep⟩ := step_of_fire hr hx.symm hf y hy
      exact ⟨⟨s', Fits.step hmark hs hstep, rfl⟩, rfl⟩

end DeductiveParsing.LeftCorner
