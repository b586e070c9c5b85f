/-
What the axioms leave in the chart: of several items with one form the first.

* `Schema.firstAxiom?`: the first item of an axiom with some form, and the name of the axiom;
* `HoldsAxioms`: a chart holds the first of the given items with each of their forms, and no others;
* `holdsAxioms_of_seed`: so does the chart behind the axioms, since an item with a form that is
  there is left out.
-/
import DeductiveParsing.Proofs.Deduction.Run

namespace DeductiveParsing

variable {W : Type}

/-- The first of several items with a form, and the name of its axiom. -/
def firstItem? (items : List (String × Item W)) (form : Form) : Option (String × Item W) :=
  items.find? fun a => a.2.form = form

/-- The first item of the axioms of a schema with a form, and the name of its axiom. -/
def Schema.firstAxiom? (schema : Schema W) (form : Form) : Option (String × Item W) :=
  firstItem? schema.axiomItems form

section FirstItem

variable {items items' : List (String × Item W)} {form : Form} {a b : String × Item W}

lemma firstItem?_append : firstItem? (items ++ items') form =
    (firstItem? items form).or (firstItem? items' form) := List.find?_append

lemma firstItem?_singleton (a : String × Item W) : firstItem? [a] a.2.form = some a := by
  simp [firstItem?]

lemma firstItem?_eq_none : firstItem? items form = none ↔ ∀ a ∈ items, a.2.form ≠ form := by
  simp [firstItem?]

end FirstItem

namespace Deduction

variable {settings : Settings} {schema : Schema W} {s t : State W}

/-- Whether a chart holds the first of the given items with each of their forms, derived as an
axiom, and nothing else. -/
structure HoldsAxioms (items : List (String × Item W)) (c : Chart W) : Prop where
  exists_form : ∀ a ∈ items, ∃ i, c.form? i = some a.2.form
  entries_eq : ∀ (i : ℕ) (e : Entry W), c.entries[i]? = some e →
    ∃ a, firstItem? items e.item.form = some a ∧ e = ⟨a.2, [⟨a.1, []⟩]⟩

lemma holdsAxioms_empty : HoldsAxioms [] (State.empty : State W).chart :=
  ⟨nofun, fun i e he => by simp [State.empty, Chart.empty] at he⟩

/-- The item of an axiom is put into the chart if none of those before it has its form, and
otherwise left out. -/
lemma HoldsAxioms.seedItem {items : List (String × Item W)} {a : String × Item W}
    (hs : s.Consistent) (hfirst : HoldsAxioms items s.chart)
    (h : seedItem settings a.1 s a.2 = .ok t) :
    t.Consistent ∧ HoldsAxioms (items ++ [a]) t.chart := by
  have hform : ∀ {u : State W}, (∀ i form, s.chart.form? i = some form →
      u.chart.form? i = some form) → (∃ i, u.chart.form? i = some a.2.form) →
        ∀ b ∈ items ++ [a], ∃ i, u.chart.form? i = some b.2.form := by
    intro u hold hnew b hb
    rcases List.mem_append.1 hb with hb | hb
    · obtain ⟨i, hi⟩ := hfirst.exists_form b hb
      exact ⟨i, hold i _ hi⟩
    · rw [List.mem_singleton.1 hb]
      exact hnew
  have hkept : ∀ {i : ℕ} {e : Entry W}, s.chart.entries[i]? = some e →
      ∃ b, firstItem? (items ++ [a]) e.item.form = some b ∧ e = ⟨b.2, [⟨b.1, []⟩]⟩ := by
    intro i e he
    obtain ⟨b, hb, heq⟩ := hfirst.entries_eq i e he
    exact ⟨b, by rw [firstItem?_append, hb]; rfl, heq⟩
  rcases MergeStep.of_seedItem h with ⟨hnew, hstep⟩ | ⟨⟨i, hi⟩, rfl⟩
  · refine ⟨hstep.consistent hs, hform (fun i form => (hstep.evolves hs).form?_eq_some)
      (hstep.exists_form hs), fun i e he => ?_⟩
    simp only [Deduction.seedItem, hnew] at h
    rw [State.insert_eq_ok h, State.requeue, Chart.entries_push] at he
    split at he
    · -- the item is new, so that none of the items before it has its form
      obtain rfl := Option.some.inj he
      have hnone : firstItem? items a.2.form = none := firstItem?_eq_none.2 fun b hb heq => by
        obtain ⟨j, hj⟩ := hfirst.exists_form b hb
        exact hs.indexed.position?_eq_none.1 hnew j (heq ▸ hj)
      exact ⟨a, by rw [firstItem?_append, hnone, firstItem?_singleton]; rfl, rfl⟩
    · exact hkept he
  · exact ⟨hs, hform (fun _ _ h => h) ⟨i, hs.indexed.position?_eq_some.1 hi⟩, fun _ _ => hkept⟩

lemma holdsAxioms_seedItems {items l : List (String × Item W)} (hs : s.Consistent)
    (hfirst : HoldsAxioms items s.chart)
    (h : l.foldlM (fun s a => seedItem settings a.1 s a.2) s = .ok t) :
    HoldsAxioms (items ++ l) t.chart := by
  induction l generalizing items s with
  | nil =>
      rw [← Except.ok.inj h, List.append_nil]
      exact hfirst
  | cons a l ih =>
      obtain ⟨u, hu, hrest⟩ := bind_eq_ok.1 (List.foldlM_cons.symm.trans h)
      obtain ⟨hconsistent, hholds⟩ := hfirst.seedItem hs hu
      rw [List.append_cons items a l]
      exact ih hconsistent hholds hrest

/-- Behind the axioms the chart holds the first of their items with each form, and no others. -/
theorem holdsAxioms_of_seed (h : seed settings schema = .ok s) :
    HoldsAxioms schema.axiomItems s.chart := by
  rw [seed_eq] at h
  exact holdsAxioms_seedItems State.consistent_empty holdsAxioms_empty h

end Deduction

end DeductiveParsing
