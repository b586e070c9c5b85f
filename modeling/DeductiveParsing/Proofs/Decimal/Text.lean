/-
The characters of numbers that are written.

* `IsPlain`: characters that neither part words nor names from values and do not end entries;
* `isPlain_of_mem_textOf`: the text of a number has no others;
* `textOf_ne_nil`: and it is not empty.
-/
import DeductiveParsing.Decimal.Text
import DeductiveParsing.Proofs.Text.Blank

namespace DeductiveParsing.Decimal

/-- Whether a character is neither a blank nor a colon nor a double quote. -/
def IsPlain (c : Char) : Prop := Text.isBlank c = false ∧ c ≠ ':' ∧ c ≠ '"'

instance (c : Char) : Decidable (IsPlain c) := inferInstanceAs (Decidable (_ ∧ _))

variable {c : Char}

lemma isPlain_of_isDigit (h : c.isDigit = true) : IsPlain c := by
  refine ⟨Text.isBlank_of_isDigit h, ?_, ?_⟩
  · rintro rfl
    exact absurd h (by decide)
  · rintro rfl
    exact absurd h (by decide)

lemma isPlain_of_mem_toDigits {n : ℕ} (h : c ∈ Nat.toDigits 10 n) : IsPlain c :=
  isPlain_of_isDigit (Nat.isDigit_of_mem_toDigits (by omega) le_rfl h)

lemma isPlain_of_mem_replicate {n : ℕ} (h : c ∈ List.replicate n '0') : IsPlain c := by
  rw [(List.mem_replicate.1 h).2]
  decide

lemma dropZeros_subset (cs : List Char) : dropZeros cs ⊆ cs := fun _ hd =>
  List.mem_reverse.1 ((List.dropWhile_sublist _).subset (List.mem_reverse.1 hd))

lemma isPlain_of_mem_positional {d : Numeral} (h : c ∈ positional d) : IsPlain c := by
  rw [positional] at h
  dsimp only at h
  split at h
  · rcases List.mem_append.1 h with h | h
    · exact isPlain_of_mem_toDigits h
    · exact isPlain_of_mem_replicate h
  · generalize hpadded : List.replicate ((-d.exponent).toNat + 1 -
      (Nat.toDigits 10 d.digits).length) '0' ++ Nat.toDigits 10 d.digits = padded at h
    have hdigits : ∀ e ∈ padded, IsPlain e := by
      rw [← hpadded]
      exact List.forall_mem_append.2
        ⟨fun e => isPlain_of_mem_replicate, fun e => isPlain_of_mem_toDigits⟩
    split at h
    · exact hdigits c (List.mem_of_mem_take h)
    · rcases List.mem_append.1 h with h | h
      · exact hdigits c (List.mem_of_mem_take h)
      · rcases List.mem_cons.1 h with rfl | h
        · decide
        · exact hdigits c (List.mem_of_mem_drop (dropZeros_subset _ h))

lemma positional_ne_nil (d : Numeral) : positional d ≠ [] := by
  rw [positional]
  dsimp only
  split
  · simp [Nat.toDigits_ne_nil]
  · -- there is a digit before the point
    generalize hpadded : List.replicate ((-d.exponent).toNat + 1 -
      (Nat.toDigits 10 d.digits).length) '0' ++ Nat.toDigits 10 d.digits = padded
    have hlength : (-d.exponent).toNat + 1 ≤ padded.length := by
      rw [← hpadded, List.length_append, List.length_replicate]
      omega
    have hwhole : padded.take (padded.length - (-d.exponent).toNat) ≠ [] := by
      rw [← List.length_pos_iff, List.length_take]
      omega
    split
    · exact hwhole
    · exact List.append_ne_nil_of_left_ne_nil hwhole _

/-- The text of a number has plain characters only. -/
theorem isPlain_of_mem_textOf {x : Float} (h : c ∈ (textOf x).toList) : IsPlain c := by
  have hsigned : ∀ {negative : Bool} {text : List Char}, (∀ d ∈ text, IsPlain d) →
      ∀ d ∈ if negative then '-' :: text else text, IsPlain d := by
    intro negative text htext
    cases negative with
    | false => exact htext
    | true => exact List.forall_mem_cons.2 ⟨by decide, htext⟩
  have hword : ∀ {text : List Char}, (text.all fun d => decide (IsPlain d)) = true →
      ∀ d ∈ text, IsPlain d :=
    fun htext d hd => of_decide_eq_true (List.all_eq_true.1 htext d hd)
  rw [textOf] at h
  dsimp only at h
  split at h
  · exact hword (by decide) c h
  · rw [String.toList_ofList] at h
    exact hsigned (hword (by decide)) c h
  · split at h <;> rw [String.toList_ofList] at h
    · exact hsigned (hword (by decide)) c h
    · exact hsigned (fun d => isPlain_of_mem_positional) c h

theorem textOf_ne_nil (x : Float) : (textOf x).toList ≠ [] := by
  have hsigned : ∀ {negative : Bool} {text : List Char}, text ≠ [] →
      (if negative then '-' :: text else text) ≠ [] := by
    intro negative text htext
    cases negative with
    | false => exact htext
    | true => exact List.cons_ne_nil _ _
  rw [textOf]
  dsimp only
  split
  · decide
  · rw [String.toList_ofList]
    exact hsigned (List.cons_ne_nil _ _)
  · split <;> rw [String.toList_ofList]
    · exact hsigned (List.cons_ne_nil _ _)
    · exact hsigned (positional_ne_nil _)

end DeductiveParsing.Decimal
