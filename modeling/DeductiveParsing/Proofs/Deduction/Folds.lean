/-
Computations that may fail, one after the other.

* `bind_eq_ok`, `exists_of_map_eq_ok`: where the result of a composed computation comes from;
* `foldlM_induction`, `exists_step_of_foldlM`: folds and their steps;
* `exists_of_mem_mapM`, `mapM_map_eq_ok`: lists that are read element by element.
-/
import Mathlib.Tactic

namespace DeductiveParsing.Deduction

variable {σ α β ε : Type}

/-! ### Composition -/

/-- A computation that begins with another one succeeds if both do. -/
lemma bind_eq_ok {o : Except ε α} {g : α → Except ε β} {b : β} :
    o >>= g = .ok b ↔ ∃ a, o = .ok a ∧ g a = .ok b := by
  constructor
  · intro h
    cases o with
    | error e => cases h
    | ok a => exact ⟨a, rfl, h⟩
  · rintro ⟨a, rfl, h⟩
    exact h

/-- What has ended well has a result. -/
lemma exists_of_isOk {o : Except ε α} (h : o.isOk = true) : ∃ a, o = .ok a := by
  cases o with
  | error e => cases h
  | ok a => exact ⟨a, rfl⟩

lemma exists_of_map_eq_ok {o : Except ε α} {f : α → β} {b : β} (h : o.map f = .ok b) :
    ∃ a, o = .ok a ∧ f a = b := by
  cases o with
  | error e => cases h
  | ok a => exact ⟨a, rfl, Except.ok.inj h⟩

/-! ### Folds -/

section Folds

variable {f : σ → α → Except ε σ}

/-- What every step of a fold preserves holds at its end. -/
lemma foldlM_induction {P : σ → Prop} {l : List α} {s t : σ} (h : l.foldlM f s = .ok t) (hs : P s)
    (hstep : ∀ s x t, x ∈ l → P s → f s x = .ok t → P t) : P t := by
  induction l generalizing s with
  | nil =>
      cases h
      exact hs
  | cons x l ih =>
      obtain ⟨u, hu, h⟩ := bind_eq_ok.1 (List.foldlM_cons.symm.trans h)
      exact ih h (hstep s x u List.mem_cons_self hs hu) fun s y t hy =>
        hstep s y t (List.mem_cons_of_mem _ hy)

/-- Every element of a list has its step in a fold. -/
lemma exists_step_of_foldlM {l : List α} {s t : σ} {x : α} (h : l.foldlM f s = .ok t)
    (hx : x ∈ l) :
    ∃ before behind u v, l = before ++ x :: behind ∧ before.foldlM f s = .ok u ∧ f u x = .ok v ∧
      behind.foldlM f v = .ok t := by
  obtain ⟨before, behind, rfl⟩ := List.append_of_mem hx
  rw [List.foldlM_append] at h
  obtain ⟨u, hu, h⟩ := bind_eq_ok.1 h
  obtain ⟨v, hv, h⟩ := bind_eq_ok.1 (List.foldlM_cons.symm.trans h)
  exact ⟨before, behind, u, v, rfl, hu, hv, h⟩

end Folds

/-! ### Lists of results -/

section Results

variable {f : α → Except ε β}

/-- The elements of a list are read one by one. -/
lemma exists_of_mem_mapM {xs : List α} {ys : List β} (h : xs.mapM f = .ok ys) :
    ∀ y ∈ ys, ∃ x ∈ xs, f x = .ok y := by
  induction xs generalizing ys with
  | nil =>
      obtain rfl := Except.ok.inj h
      simp
  | cons x xs ih =>
      rw [List.mapM_cons] at h
      obtain ⟨y, hy, h⟩ := bind_eq_ok.1 h
      obtain ⟨rest, hrest, h⟩ := bind_eq_ok.1 h
      obtain rfl := Except.ok.inj h
      intro z hz
      rcases List.mem_cons.1 hz with rfl | hz
      · exact ⟨x, List.mem_cons_self, hy⟩
      · obtain ⟨x', hx', hz⟩ := ih hrest z hz
        exact ⟨x', List.mem_cons_of_mem _ hx', hz⟩

/-- What is read from the texts of things is those things. -/
lemma mapM_map_eq_ok {text : β → α} {xs : List β} (h : ∀ x ∈ xs, f (text x) = .ok x) :
    (xs.map text).mapM f = .ok xs := by
  induction xs with
  | nil => rfl
  | cons x xs ih =>
      obtain ⟨hx, hxs⟩ := List.forall_mem_cons.1 h
      rw [List.map_cons, List.mapM_cons]
      exact bind_eq_ok.2 ⟨x, hx, bind_eq_ok.2 ⟨xs, ih hxs, rfl⟩⟩

end Results

end DeductiveParsing.Deduction
