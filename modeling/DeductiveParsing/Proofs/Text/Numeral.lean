/-
Numerals that are written and read again.

* `digitsValueAfter_eq`: a sequence of digits denotes the number that it spells;
* `readNumber?_repr`, `readIndex?_repr`: a number is read from its numeral, as an index if it is below
  the bound.
-/
import DeductiveParsing.Proofs.Text.Blank
import DeductiveParsing.Text.Numeral

namespace DeductiveParsing.Text

lemma digitsValueAfter_eq {cs : List Char} (h : ∀ c ∈ cs, c.isDigit = true) (value : ℕ) :
    digitsValueAfter value cs = some (Nat.ofDigitChars 10 cs value) := by
  induction cs generalizing value with
  | nil => rw [digitsValueAfter, Nat.ofDigitChars_nil]
  | cons c cs ih =>
      have hc : digit? c = some (c.toNat - '0'.toNat) := if_pos (h c List.mem_cons_self)
      rw [digitsValueAfter, hc, Nat.ofDigitChars_cons]
      exact ih (fun d hd => h d (List.mem_cons_of_mem _ hd)) _

/-- A numeral consists of digits. -/
lemma isDigit_of_mem_repr {n : ℕ} {c : Char} (h : c ∈ n.repr.toList) : c.isDigit = true := by
  rw [Nat.toList_repr] at h
  exact Nat.isDigit_of_mem_toDigits (by omega) le_rfl h

lemma isTrimmed_repr (n : ℕ) : IsTrimmed n.repr.toList := by
  refine isTrimmed_of_forall ?_ fun c hc => isBlank_of_isDigit (isDigit_of_mem_repr hc)
  rw [Nat.toList_repr]
  exact Nat.toDigits_ne_nil

/-- A number is read from its numeral, however large it is. -/
theorem readNumber?_repr (n : ℕ) : readNumber? n.repr.toList = some n := by
  have hdigit : ∀ c ∈ Nat.toDigits 10 n, c.isDigit = true :=
    fun c hc => isDigit_of_mem_repr (by rwa [Nat.toList_repr])
  have hvalue := digitsValueAfter_eq hdigit 0
  rw [Nat.ofDigitChars_ten_toDigits] at hvalue
  rw [Nat.toList_repr]
  -- a numeral has a first digit, which is not the sign
  cases hdigits : Nat.toDigits 10 n with
  | nil => exact absurd hdigits Nat.toDigits_ne_nil
  | cons c cs =>
      rw [hdigits] at hdigit hvalue
      have hsign : c ≠ '+' := by
        rintro rfl
        exact absurd (hdigit '+' List.mem_cons_self) (by decide)
      have hread : readNumber? (c :: cs) = digitsValue? (c :: cs) := by
        rw [readNumber?]
        intro rest heq
        exact hsign (List.cons.inj heq).1
      rw [hread, digitsValue?, hvalue]
      exact List.cons_ne_nil c cs

/-- As an index, a number is read from its numeral if it is below the bound. -/
theorem readIndex?_repr (n : ℕ) :
    readIndex? n.repr.toList = if n < indexBound then some n else none := by
  rw [readIndex?, readNumber?_repr, Option.filter]
  simp

end DeductiveParsing.Text
