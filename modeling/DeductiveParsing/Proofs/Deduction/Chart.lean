/-
Charts and their indices.

* `Chart.Indexed`: the index holds the form of every entry, and nothing else;
* `Chart.Indexed.eq_of_form`: no two positions have the same form;
* `Chart.Indexed.push`, `Chart.Indexed.modify`: the changes that a deduction makes keep it so.
-/
import Mathlib.Tactic
import Std.Data.HashMap.Lemmas
import DeductiveParsing.Deduction.Chart

namespace DeductiveParsing

variable {W : Type}

/-- Recording a derivation leaves the item as it is. -/
@[simp] lemma Entry.item_addDerivation (e : Entry W) (d : Derivation) :
    (e.addDerivation d).item = e.item := by
  rw [addDerivation]
  split <;> rfl

lemma Entry.mem_addDerivation {e : Entry W} {d d' : Derivation} :
    d' ∈ (e.addDerivation d).derivations ↔ d' ∈ e.derivations ∨ d' = d := by
  rw [Entry.addDerivation]
  split
  · rename_i hd
    exact ⟨Or.inl, fun h => h.elim id fun heq => heq ▸ List.contains_iff_mem.1 hd⟩
  · simp

lemma Entry.nodup_addDerivation {e : Entry W} (h : e.derivations.Nodup) (d : Derivation) :
    (e.addDerivation d).derivations.Nodup := by
  rw [Entry.addDerivation]
  split
  · exact h
  · rename_i hd
    exact h.append (List.nodup_singleton d)
      (List.disjoint_singleton.2 fun hmem => hd (List.contains_iff_mem.2 hmem))

namespace Chart

/-- The form at a position. -/
def form? (c : Chart W) (i : ℕ) : Option Form := (c.item? i).map Item.form

/-- Whether the index leads from every form to its position and from no other form to any. -/
def Indexed (c : Chart W) : Prop := ∀ form i, c.index[form]? = some i ↔ c.form? i = some form

/-! ### Entries after a change -/

@[simp] lemma item?_empty (i : ℕ) : (empty : Chart W).item? i = none := by simp [empty, item?]

lemma item?_eq_some_iff {c : Chart W} {i : ℕ} {x : Item W} :
    c.item? i = some x ↔ ∃ e, c.entries[i]? = some e ∧ e.item = x := by simp [item?]

lemma lt_size_iff {c : Chart W} {i : ℕ} : i < c.size ↔ ∃ x, c.item? i = some x := by
  rw [← Option.isSome_iff_exists]
  simp [item?, size]

lemma item?_eq_none {c : Chart W} {i : ℕ} (h : c.size ≤ i) : c.item? i = none := by
  rw [Option.eq_none_iff_forall_ne_some]
  exact fun x hx => absurd (lt_size_iff.2 ⟨x, hx⟩) (by omega)

lemma lt_size_of_form? {c : Chart W} {i : ℕ} {form : Form} (h : c.form? i = some form) :
    i < c.size := by
  obtain ⟨x, hx, -⟩ := Option.map_eq_some_iff.1 h
  exact lt_size_iff.2 ⟨x, hx⟩

@[simp] lemma size_push (c : Chart W) (x : Item W) (d : Derivation) :
    (c.push x d).size = c.size + 1 := by simp [push, size]

lemma entries_push (c : Chart W) (x : Item W) (d : Derivation) (i : ℕ) :
    (c.push x d).entries[i]? = if i = c.size then some ⟨x, [d]⟩ else c.entries[i]? :=
  Array.getElem?_push

lemma item?_push (c : Chart W) (x : Item W) (d : Derivation) (i : ℕ) :
    (c.push x d).item? i = if i = c.size then some x else c.item? i := by
  rw [item?, entries_push]
  split <;> rfl

@[simp] lemma size_modify (c : Chart W) (j : ℕ) (change : Entry W → Entry W) :
    (c.modify j change).size = c.size := by simp [modify, size]

lemma entries_modify (c : Chart W) (j : ℕ) (change : Entry W → Entry W) (i : ℕ) :
    (c.modify j change).entries[i]? =
      if j = i then (c.entries[i]?).map change else c.entries[i]? := by
  simp [modify, Array.getElem?_modify]

/-! ### The index -/

lemma indexed_empty : (empty : Chart W).Indexed := by
  intro form i
  simp [empty, form?, item?]

lemma Indexed.position?_eq_some {c : Chart W} (h : c.Indexed) {x : Item W} {i : ℕ} :
    c.position? x = some i ↔ c.form? i = some x.form := h x.form i

lemma Indexed.position?_eq_none {c : Chart W} (h : c.Indexed) {x : Item W} :
    c.position? x = none ↔ ∀ i, c.form? i ≠ some x.form := by
  rw [Option.eq_none_iff_forall_ne_some]
  exact forall_congr' fun i => not_congr h.position?_eq_some

/-- No two positions have the same form. -/
lemma Indexed.eq_of_form {c : Chart W} (h : c.Indexed) {i j : ℕ} {form : Form}
    (hi : c.form? i = some form) (hj : c.form? j = some form) : i = j :=
  Option.some.inj (((h form i).2 hi).symm.trans ((h form j).2 hj))

lemma Indexed.push {c : Chart W} (h : c.Indexed) {x : Item W} (d : Derivation)
    (hnew : c.position? x = none) : (c.push x d).Indexed := by
  intro form i
  have hindex : (c.push x d).index[form]? =
      if x.form = form then some c.size else c.index[form]? := by
    simp [Chart.push, Std.HashMap.getElem?_insert, Chart.size]
  have hform : (c.push x d).form? i = if i = c.size then some x.form else c.form? i := by
    rw [Chart.form?, item?_push]
    split <;> rfl
  rw [hindex, hform]
  by_cases hx : x.form = form
  · subst hx
    have hother := h.position?_eq_none.1 hnew i
    by_cases hi : i = c.size
    · simp [hi]
    · simpa [hi, Ne.symm hi] using hother
  · rw [if_neg hx, h form i]
    by_cases hi : i = c.size
    · -- behind the last entry there was none
      have hnone : c.form? i ≠ some form := fun hf => by
        have := lt_size_of_form? hf
        omega
      simp [hi, hx, hi ▸ hnone]
    · simp [hi]

lemma Indexed.modify {c : Chart W} (h : c.Indexed) {j : ℕ} {change : Entry W → Entry W}
    (hsame : ∀ e, c.entries[j]? = some e → (change e).item.form = e.item.form) :
    (c.modify j change).Indexed := by
  intro form i
  have hform : (c.modify j change).form? i = c.form? i := by
    rw [Chart.form?, item?, entries_modify, Chart.form?, item?]
    split
    · rename_i hj
      subst hj
      cases he : c.entries[j]? with
      | none => rfl
      | some e => simp [hsame e he]
    · rfl
  rw [hform]
  exact h form i

end Chart

end DeductiveParsing
