/-
Rewriting of sequences, one element at a time.

* `Rewriting.Step`, `Rewriting.Derives`: one replacement, and any number of replacements;
* `Rewriting.Unfolds`: from left to right, every element is kept, or it gives way to what the
  sequence in its place unfolds to;
* `Unfolds.exists_of_append`: two sequences in a row unfold apart from one another;
* `Unfolds.length_le`, `Unfolds.map`: unfolding and lengths, and unfolding of renamed elements;
* `unfolds_iff_derives`: both ways of rewriting lead to the same sequences.
-/
import Mathlib.Tactic

namespace DeductiveParsing.Rewriting

variable {α : Type} {R : α → List α → Prop}

/-- The replacement of one element by a sequence that `R` allows in its place. -/
inductive Step (R : α → List α → Prop) : List α → List α → Prop where
  | replace (left right : List α) {x : α} {xs : List α} (h : R x xs) :
      Step R (left ++ x :: right) (left ++ xs ++ right)

/-- Any number of replacements. -/
def Derives (R : α → List α → Prop) : List α → List α → Prop := Relation.ReflTransGen (Step R)

/-- From left to right, every element is kept, or the sequence in its place is unfolded. -/
inductive Unfolds (R : α → List α → Prop) : List α → List α → Prop where
  | nil : Unfolds R [] []
  | keep (x : α) {xs ys : List α} (h : Unfolds R xs ys) : Unfolds R (x :: xs) (x :: ys)
  | expand {x : α} {rhs us xs ys : List α} (hx : R x rhs) (hrhs : Unfolds R rhs us)
      (hxs : Unfolds R xs ys) : Unfolds R (x :: xs) (us ++ ys)

/-! ### Derivations in context -/

namespace Derives

variable {us vs ws : List α}

lemma refl (us : List α) : Derives R us us := Relation.ReflTransGen.refl

lemma trans (h : Derives R us vs) (h' : Derives R vs ws) : Derives R us ws :=
  Relation.ReflTransGen.trans h h'

lemma of_step (h : Step R us vs) : Derives R us vs := Relation.ReflTransGen.single h

/-- One element replaced between others. -/
lemma replace (left right : List α) {x : α} {xs : List α} (h : R x xs) :
    Derives R (left ++ x :: right) (left ++ xs ++ right) := of_step (.replace left right h)

lemma append_left (left : List α) (h : Derives R us vs) :
    Derives R (left ++ us) (left ++ vs) := by
  induction h with
  | refl => exact refl _
  | tail _ hstep ih =>
      refine ih.trans (of_step ?_)
      cases hstep with
      | replace l r hx => simpa using Step.replace (left ++ l) r hx

lemma append_right (right : List α) (h : Derives R us vs) :
    Derives R (us ++ right) (vs ++ right) := by
  induction h with
  | refl => exact refl _
  | tail _ hstep ih =>
      refine ih.trans (of_step ?_)
      cases hstep with
      | replace l r hx => simpa using Step.replace l (r ++ right) hx

lemma append {us' vs' : List α} (h : Derives R us vs) (h' : Derives R us' vs') :
    Derives R (us ++ us') (vs ++ vs') := (h.append_right us').trans (h'.append_left vs)

/-- What is derived with some replacements is derived with more of them. -/
lemma mono {R' : α → List α → Prop} (hR : ∀ x xs, R x xs → R' x xs) (h : Derives R us vs) :
    Derives R' us vs := by
  refine Relation.ReflTransGen.mono (fun us vs hstep => ?_) _ _ h
  cases hstep with
  | replace left right hx => exact .replace left right (hR _ _ hx)

end Derives

/-! ### Unfolding -/

namespace Unfolds

variable {us vs ws : List α}

lemma refl (us : List α) : Unfolds R us us := by
  induction us with
  | nil => exact .nil
  | cons x us ih => exact .keep x ih

lemma append {us' vs' : List α} (h : Unfolds R us vs) (h' : Unfolds R us' vs') :
    Unfolds R (us ++ us') (vs ++ vs') := by
  induction h with
  | nil => exact h'
  | keep x _ ih => exact .keep x ih
  | expand hx hrhs _ _ ih =>
      rw [List.cons_append, List.append_assoc]
      exact .expand hx hrhs ih

/-- Two sequences in a row unfold apart from one another. -/
lemma exists_of_append (h : Unfolds R (us ++ vs) ws) :
    ∃ us' vs', ws = us' ++ vs' ∧ Unfolds R us us' ∧ Unfolds R vs vs' := by
  induction us generalizing ws with
  | nil => exact ⟨[], ws, rfl, .nil, h⟩
  | cons x us ih =>
      cases h with
      | keep _ h =>
          obtain ⟨us', vs', rfl, hus, hvs⟩ := ih h
          exact ⟨x :: us', vs', rfl, .keep x hus, hvs⟩
      | expand hx hrhs h =>
          obtain ⟨us', vs', rfl, hus, hvs⟩ := ih h
          exact ⟨_, vs', by rw [List.append_assoc], .expand hx hrhs hus, hvs⟩

/-- The first step of a derivation may be taken before unfolding. -/
lemma of_step (hstep : Step R us vs) (h : Unfolds R vs ws) : Unfolds R us ws := by
  cases hstep with
  | replace left right hx =>
      obtain ⟨ws', right', rfl, h, hright⟩ := exists_of_append h
      obtain ⟨left', us', rfl, hleft, hus⟩ := exists_of_append h
      rw [List.append_assoc]
      exact hleft.append (.expand hx hus hright)

lemma derives (h : Unfolds R us vs) : Derives R us vs := by
  induction h with
  | nil => exact .refl []
  | keep x _ ih => exact ih.append_left [x]
  | @expand x rhs us xs ys hx _ _ ihrhs ihxs =>
      exact (Derives.replace [] xs hx).trans (ihrhs.append ihxs)

/-- If nothing gives way to the empty sequence, nothing gets shorter. -/
lemma length_le (hR : ∀ x rhs, R x rhs → rhs ≠ []) (h : Unfolds R us vs) :
    us.length ≤ vs.length := by
  induction h with
  | nil => exact le_rfl
  | keep x _ ih => exact Nat.succ_le_succ ih
  | @expand x rhs us xs ys hx _ _ ihrhs ihxs =>
      have hpos := List.length_pos_iff.2 (hR x rhs hx)
      rw [List.length_cons, List.length_append]
      omega

/-- What is unfolded may be renamed, if the renamed elements may be replaced as well. -/
lemma map {β : Type} {R' : β → List β → Prop} (f : α → β)
    (hR : ∀ x rhs, R x rhs → R' (f x) (rhs.map f)) (h : Unfolds R us vs) :
    Unfolds R' (us.map f) (vs.map f) := by
  induction h with
  | nil => exact .nil
  | keep x _ ih => exact .keep (f x) ih
  | expand hx _ _ ihrhs ihxs =>
      rw [List.map_append]
      exact .expand (hR _ _ hx) ihrhs ihxs

/-- What nothing can take the place of stays as it is. -/
lemma eq_of_forall_not (hxs : ∀ x ∈ us, ∀ rhs, ¬ R x rhs) (h : Unfolds R us vs) : vs = us := by
  induction h with
  | nil => rfl
  | keep x _ ih => rw [ih fun y hy => hxs y (List.mem_cons_of_mem _ hy)]
  | expand hx => exact absurd hx (hxs _ List.mem_cons_self _)

end Unfolds

/-- Unfolding from left to right leads to the same sequences as replacing elements in any order. -/
theorem unfolds_iff_derives {us vs : List α} : Unfolds R us vs ↔ Derives R us vs := by
  refine ⟨Unfolds.derives, fun h => ?_⟩
  induction h using Relation.ReflTransGen.head_induction_on with
  | refl => exact .refl vs
  | head hstep _ ih => exact .of_step hstep ih

end DeductiveParsing.Rewriting
