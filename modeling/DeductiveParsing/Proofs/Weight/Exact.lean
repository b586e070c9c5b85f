/-
Exact numbers as weights. They are the numbers of an ordered field together with two infinities and
the result of undefined operations, for which the rules of floating-point arithmetic hold: what is
undefined stays so, and no comparison with it is true. Nothing is rounded.

* `Numbers`: ordered fields with costs;
* `Exact`: numbers with the special values;
* the instance `Weight (Exact K)`, and `OrderedWeight (Exact K)`: the comparison is a strict order;
* `Exact.mul_right_comm`, `Exact.add_right_comm`: factors and terms may be exchanged, special values
  included;
* `Exact.ofTop`: costs, of which only the infinite one is no number;
* `Exact.cost_eq_ofTop`: probabilities have such costs;
* `Exact.exists_cost_eq`: fractions have all that are not negative.
-/
import DeductiveParsing.Decimal.Reader
import DeductiveParsing.Proofs.Deduction.Replacement

namespace DeductiveParsing

/-- An ordered field, with what weights need besides its arithmetic and its order: the costs of
positive numbers and how numbers are written. -/
class Numbers (K : Type) extends CommRing K, DivisionRing K, LinearOrder K,
    IsStrictOrderedRing K where
  cost : K → K
  text : K → String

/-- Real numbers cost their negated natural logarithm. They have no finite written form. -/
noncomputable instance : Numbers ℝ where
  cost x := -Real.log x
  text _ := "_"

/-- For fractions there is a rational cost in the place of the negated logarithm. It is zero for one
and grows without a bound towards zero as well. -/
instance : Numbers ℚ where
  cost x := x⁻¹ - 1
  text := toString

/-- A number, an infinity, or the result of an undefined operation. -/
inductive Exact (K : Type) where
  | number (x : K)
  | infinite (negative : Bool)
  | undefined

namespace Exact

variable {K : Type} [Numbers K]

/-- The number, where there is one. -/
def value : Exact K → K
  | number x => x
  | _ => 0

/-- The strict order. What is undefined has no place in it. -/
def less : Exact K → Exact K → Bool
  | number x, number y => x < y
  | infinite negative, number _ => negative
  | number _, infinite negative => !negative
  | infinite negative, infinite negative' => negative && !negative'
  | _, _ => false

/-- The sum. Different infinities have none. -/
def add : Exact K → Exact K → Exact K
  | number x, number y => number (x + y)
  | infinite negative, number _ => infinite negative
  | number _, infinite negative => infinite negative
  | infinite negative, infinite negative' =>
    if negative = negative' then infinite negative else undefined
  | _, _ => undefined

/-- The opposite. -/
def neg : Exact K → Exact K
  | number x => number (-x)
  | infinite negative => infinite (!negative)
  | undefined => undefined

/-- The product of an infinity and a number. For zero it is undefined. -/
def scale (negative : Bool) (x : K) : Exact K :=
  if x = 0 then undefined else infinite (negative != decide (x < 0))

/-- The product. -/
def mul : Exact K → Exact K → Exact K
  | number x, number y => number (x * y)
  | infinite negative, number x => scale negative x
  | number x, infinite negative => scale negative x
  | infinite negative, infinite negative' => infinite (negative != negative')
  | _, _ => undefined

/-- The cost. It is infinite for zero and undefined below. -/
def cost : Exact K → Exact K
  | number x =>
    if x = 0 then infinite false else if x < 0 then undefined else number (Numbers.cost x)
  | infinite false => infinite true
  | _ => undefined

/-- The value of a numeral with a sign. -/
def ofNumeral (negative : Bool) (n : Decimal.Numeral) : Exact K :=
  let x : K := n.digits * 10 ^ n.exponent
  number (if negative then -x else x)

/-- The words that denote no number. -/
def readWord? (negative : Bool) (cs : List Char) : Option (Exact K) :=
  match String.ofList (cs.map Char.toLower) with
  | "inf" => some (infinite negative)
  | "infinity" => some (infinite negative)
  | "nan" => some undefined
  | _ => none

/-- Reads a number as floating-point numbers are read, but without rounding. -/
def read? (cs : List Char) : Option (Exact K) :=
  let (negative, unsigned) := Decimal.takeSign cs
  match Decimal.readNumeral? unsigned with
  | some n => some (ofNumeral negative n)
  | none => readWord? negative unsigned

/-- The written form. -/
def text : Exact K → String
  | number x => Numbers.text x
  | infinite negative => if negative then "-inf" else "inf"
  | undefined => "NaN"

instance : Weight (Exact K) where
  less := less
  zero := number 0
  infinite := infinite false
  add := add
  sub x y := add x (neg y)
  mul := mul
  cost := cost
  share n := if n = 0 then infinite false else number (1 / n)
  isProbability x :=
    match x with
    | number x => 0 ≤ x && x ≤ 1
    | _ => false
  read? := read?
  text := text

variable {x y : K}

@[simp]
lemma less_number : Weight.less (number x) (number y) = decide (x < y) := rfl

@[simp]
lemma mul_number : Weight.mul (number x) (number y) = number (x * y) := rfl

@[simp]
lemma zero_eq : (Weight.zero : Exact K) = number 0 := rfl

@[simp]
lemma infinite_eq : (Weight.infinite : Exact K) = infinite false := rfl

@[simp]
lemma less_infinite (x : K) (negative : Bool) :
    Weight.less (number x) (infinite negative) = !negative := rfl

@[simp]
lemma infinite_less (negative : Bool) (x : K) :
    Weight.less (infinite negative) (number x) = negative := rfl

@[simp]
lemma infinite_less_infinite (negative negative' : Bool) :
    Weight.less (infinite negative : Exact K) (infinite negative') = (negative && !negative') := rfl

@[simp]
lemma add_number (x y : K) : Weight.add (number x) (number y) = number (x + y) := rfl

@[simp]
lemma add_infinite (x : K) (negative : Bool) :
    Weight.add (number x) (infinite negative) = infinite negative := rfl

@[simp]
lemma infinite_add (negative : Bool) (x : K) :
    Weight.add (infinite negative) (number x) = infinite negative := rfl

/-- What is undefined is not less than anything, and nothing is less. -/
@[simp]
lemma less_undefined (v : Exact K) : Weight.less v undefined = false := by cases v <;> rfl

/-- Numerals without a sign are read as what they say. -/
lemma read?_of_readNumeral? {cs : List Char} {n : Decimal.Numeral}
    (hsign : Decimal.takeSign cs = (false, cs)) (hn : Decimal.readNumeral? cs = some n) :
    Weight.read? cs = some (number (n.digits * 10 ^ n.exponent : K)) := by
  simp [Weight.read?, read?, hsign, hn, ofNumeral]

/-- The comparison is a strict order. -/
instance : OrderedWeight (Exact K) where
  less_irrefl v := by
    cases v with
    | number x => simp
    | infinite negative => cases negative <;> rfl
    | undefined => rfl
  less_trans u v w huv hvw := by
    simp only [Weight.less] at huv hvw ⊢
    cases u <;> cases v <;> cases w <;> simp only [less, Bool.false_eq_true] at huv hvw ⊢
    · exact decide_eq_true ((of_decide_eq_true huv).trans (of_decide_eq_true hvw))
    · exact hvw
    · simp_all
    · simp_all
    · exact huv
    · simp_all
    · simp_all
    · simp_all

/-! ### Exchanging factors and terms -/

@[simp]
lemma number_mul_infinite (x : K) (negative : Bool) :
    Weight.mul (number x) (infinite negative) = scale negative x := rfl

@[simp]
lemma infinite_mul_number (negative : Bool) (x : K) :
    Weight.mul (infinite negative) (number x) = scale negative x := rfl

@[simp]
lemma infinite_mul_infinite (negative negative' : Bool) :
    Weight.mul (infinite negative : Exact K) (infinite negative') =
      infinite (negative != negative') := rfl

@[simp]
lemma mul_undefined (v : Exact K) : Weight.mul v undefined = undefined := by cases v <;> rfl

@[simp]
lemma undefined_mul (v : Exact K) : Weight.mul undefined v = undefined := by cases v <;> rfl

/-- The sign of a product. -/
lemma decide_mul_neg {x y : K} (hx : x ≠ 0) (hy : y ≠ 0) :
    decide (x * y < 0) = (decide (x < 0) != decide (y < 0)) := by
  rcases hx.lt_or_gt with hx | hx <;> rcases hy.lt_or_gt with hy | hy
  · simp [hx, hy, (mul_pos_of_neg_of_neg hx hy).not_gt]
  · simp [hx, hy.not_gt, mul_neg_of_neg_of_pos hx hy]
  · simp [hx.not_gt, hy, mul_neg_of_pos_of_neg hx hy]
  · simp [hx.not_gt, hy.not_gt, (mul_pos hx hy).not_gt]

/-- An infinity is multiplied by two numbers as by their product. -/
@[simp]
lemma scale_mul_number (negative : Bool) (x y : K) :
    Weight.mul (scale negative x) (number y) = scale negative (x * y) := by
  by_cases hx : x = 0
  · simp [scale, hx]
  · by_cases hy : y = 0
    · simp [scale, hx, hy]
    · simp [scale, hx, hy, decide_mul_neg]

/-- Two infinities are multiplied by a number as their product is. -/
@[simp]
lemma scale_mul_infinite (negative negative' : Bool) (x : K) :
    Weight.mul (scale negative x) (infinite negative') = scale (negative != negative') x := by
  by_cases hx : x = 0
  · simp [scale, hx]
  · cases negative <;> cases negative' <;> simp [scale, hx]

/-- Factors may be exchanged, whatever numbers or special values they are. -/
protected lemma mul_right_comm (u v w : Exact K) :
    Weight.mul (Weight.mul u v) w = Weight.mul (Weight.mul u w) v := by
  cases u with
  | undefined => simp
  | number x => cases v <;> cases w <;> simp [mul_comm, mul_left_comm, Bool.xor_comm]
  | infinite n =>
      cases v <;> cases w <;> simp [mul_comm]
      rename_i m k
      cases m <;> cases k <;> simp

@[simp]
lemma infinite_add_infinite (negative negative' : Bool) :
    Weight.add (infinite negative : Exact K) (infinite negative') =
      if negative = negative' then infinite negative else undefined := rfl

@[simp]
lemma add_undefined (v : Exact K) : Weight.add v undefined = undefined := by cases v <;> rfl

@[simp]
lemma undefined_add (v : Exact K) : Weight.add undefined v = undefined := by cases v <;> rfl

/-- Terms may be exchanged, whatever numbers or special values they are. -/
protected lemma add_right_comm (u v w : Exact K) :
    Weight.add (Weight.add u v) w = Weight.add (Weight.add u w) v := by
  -- whether infinities have a sum is decided by their signs
  cases u with
  | undefined => simp
  | number x =>
      cases v <;> cases w <;> simp [add_right_comm]
      rename_i m k
      cases m <;> cases k <;> simp
  | infinite n =>
      cases v with
      | undefined => simp
      | number y =>
          cases w with
          | infinite k => cases n <;> cases k <;> simp
          | _ => simp
      | infinite m =>
          cases w with
          | infinite k => cases n <;> cases m <;> cases k <;> simp
          | _ => cases n <;> cases m <;> simp

/-! ### Costs -/

/-- A number or the infinite cost. -/
def ofTop : WithTop K → Exact K
  | some x => number x
  | none => infinite false

/-- The number, or the infinite cost where there is none. -/
def toTop : Exact K → WithTop K
  | number x => x
  | _ => ⊤

omit [Numbers K] in
@[simp]
lemma ofTop_coe (x : K) : ofTop (x : WithTop K) = number x := rfl

omit [Numbers K] in
@[simp]
lemma ofTop_top : ofTop (⊤ : WithTop K) = infinite false := rfl

omit [Numbers K] in
@[simp]
lemma toTop_ofTop (v : WithTop K) : toTop (ofTop v) = v := by cases v <;> rfl

@[simp]
lemma add_ofTop (v w : WithTop K) : Weight.add (ofTop v) (ofTop w) = ofTop (v + w) := by
  cases v <;> cases w <;> rfl

@[simp]
lemma less_ofTop (v w : WithTop K) : Weight.less (ofTop v) (ofTop w) = decide (v < w) := by
  cases v <;> cases w <;> simp [Weight.less, less]

/-- A number that has been put on is taken off again. -/
lemma sub_ofTop_add (v : WithTop K) (x : K) :
    Weight.sub (ofTop (v + (x : WithTop K))) (number x) = ofTop v := by
  cases v with
  | top => rfl
  | coe y =>
      rw [← WithTop.coe_add]
      exact congrArg number (by simp [← sub_eq_add_neg])

@[simp]
lemma cost_zero : Weight.cost (number (0 : K)) = infinite false := by simp [Weight.cost, cost]

lemma cost_of_pos (hx : 0 < x) : Weight.cost (number x) = number (Numbers.cost x) := by
  simp [Weight.cost, cost, hx.ne', hx.not_gt]

/-- Probabilities have costs, which are infinite for zero. -/
lemma cost_eq_ofTop {w : Exact K} (hw : Weight.isProbability w = true) :
    Weight.cost w = ofTop (Weight.cost w).toTop := by
  cases w with
  | number x =>
      obtain ⟨h0, -⟩ : 0 ≤ x ∧ x ≤ 1 := by simpa [Weight.isProbability] using hw
      rcases h0.eq_or_lt with rfl | hpos
      · rw [cost_zero]
        rfl
      · rw [cost_of_pos hpos]
        rfl
  | infinite => cases hw
  | undefined => cases hw

/-- Every cost that is not negative is that of a fraction. -/
lemma exists_cost_eq {c : ℚ} (hc : 0 ≤ c) : ∃ x : ℚ, Weight.isProbability (number x) = true ∧
    Weight.cost (number x) = number c := by
  have hpos : 0 < c + 1 := by positivity
  refine ⟨(c + 1)⁻¹, ?_, ?_⟩
  · have hone : 1 ≤ c + 1 := le_add_of_nonneg_left hc
    simp [Weight.isProbability, hpos.le, inv_le_one_of_one_le₀ hone]
  · have hinv : 0 < (c + 1)⁻¹ := inv_pos.2 hpos
    simp [cost_of_pos hinv, Numbers.cost]

end Exact

end DeductiveParsing
