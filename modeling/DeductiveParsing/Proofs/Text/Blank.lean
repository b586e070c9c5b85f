/-
Texts that are cut at blanks or at a mark.

* `trim_eq_self`: a text without blanks at its ends stays as it is;
* `words_intercalate`: words with blanks between them are cut apart again;
* `pieces_append`, `pieces_intercalate`: a text is cut at the first mark, and texts with marks between
  them are cut apart again.
-/
import DeductiveParsing.Text.Blank
import Mathlib.Tactic

namespace DeductiveParsing.Text

variable {cs ds word : List Char} {c b mark : Char}

/-! ### Characters -/

/-- Digits are not blank. -/
lemma isBlank_of_isDigit (h : c.isDigit = true) : isBlank c = false := by
  have hrange : 48 ≤ c.toNat ∧ c.toNat ≤ 57 := by
    simp only [Char.isDigit, Bool.and_eq_true, decide_eq_true_eq, ge_iff_le] at h
    exact ⟨UInt32.le_iff_toNat_le.1 h.1, UInt32.le_iff_toNat_le.1 h.2⟩
  simp [isBlank]
  omega

lemma mem_of_mem_intercalate {separator : List Char} {texts : List (List Char)}
    (h : c ∈ separator.intercalate texts) : c ∈ separator ∨ ∃ text ∈ texts, c ∈ text := by
  induction texts with
  | nil => simp at h
  | cons text texts ih =>
      cases texts with
      | nil => exact Or.inr ⟨text, List.mem_singleton_self _, by simpa using h⟩
      | cons next texts =>
          rw [List.intercalate_cons_cons, List.mem_append, List.mem_append] at h
          rcases h with (h | h) | h
          · exact Or.inr ⟨text, List.mem_cons_self, h⟩
          · exact Or.inl h
          · exact (ih h).imp_right fun ⟨t, ht, hc⟩ => ⟨t, List.mem_cons_of_mem _ ht, hc⟩

/-! ### Blank ends -/

lemma trimStart_cons (h : isBlank c = false) : trimStart (c :: cs) = c :: cs := by
  rw [trimStart, List.dropWhile_cons_of_neg (by simp [h])]

/-- What is trimmed does not begin with a blank. -/
lemma isBlank_of_trimStart_eq_cons (h : trimStart cs = c :: ds) : isBlank c = false := by
  have hhead := List.head?_dropWhile_not isBlank cs
  rw [← trimStart, h] at hhead
  simpa using hhead

lemma trimEnd_sublist (cs : List Char) : (trimEnd cs).Sublist cs := by
  induction cs with
  | nil => exact .slnil
  | cons c cs ih =>
      rw [trimEnd]
      split
      · split
        · exact List.nil_sublist _
        · exact (List.nil_sublist cs).cons_cons c
      · exact ih.cons_cons c

lemma trim_sublist (cs : List Char) : (trim cs).Sublist cs :=
  (trimEnd_sublist _).trans (List.dropWhile_sublist _)

/-- Up to a character that is not blank everything stays. -/
lemma trimEnd_append (cs : List Char) (h : trimEnd ds ≠ []) :
    trimEnd (cs ++ ds) = cs ++ trimEnd ds := by
  induction cs with
  | nil => rfl
  | cons c cs ih =>
      rw [List.cons_append, trimEnd, ih]
      split
      next heq => exact absurd (List.append_eq_nil_iff.1 heq).2 h
      next => rfl

lemma trimEnd_concat (cs : List Char) (h : isBlank c = false) : trimEnd (cs ++ [c]) = cs ++ [c] := by
  have hlast : trimEnd [c] = [c] := by simp [trimEnd, h]
  rw [trimEnd_append cs (by rw [hlast]; exact List.cons_ne_nil _ _), hlast]

/-- A blank behind a text is cut off. -/
lemma trimEnd_concat_of_blank (cs : List Char) (h : isBlank b = true) :
    trimEnd (cs ++ [b]) = trimEnd cs := by
  induction cs with
  | nil => simp [trimEnd, h]
  | cons c cs ih => rw [List.cons_append, trimEnd, trimEnd, ih]

/-- Whether a text has characters, of which neither the first nor the last is blank. -/
def IsTrimmed (cs : List Char) : Prop :=
  (∃ c ds, cs = c :: ds ∧ isBlank c = false) ∧ ∃ ds c, cs = ds ++ [c] ∧ isBlank c = false

lemma IsTrimmed.trimStart_eq (h : IsTrimmed cs) : trimStart cs = cs := by
  obtain ⟨⟨c, ds, rfl, hc⟩, -⟩ := h
  exact trimStart_cons hc

lemma IsTrimmed.trimEnd_eq (h : IsTrimmed cs) : trimEnd cs = cs := by
  obtain ⟨-, ds, c, rfl, hc⟩ := h
  exact trimEnd_concat ds hc

lemma IsTrimmed.trim_eq (h : IsTrimmed cs) : trim cs = cs := by
  rw [trim, h.trimStart_eq, h.trimEnd_eq]

lemma IsTrimmed.ne_nil (h : IsTrimmed cs) : cs ≠ [] := by
  obtain ⟨⟨c, ds, rfl, -⟩, -⟩ := h
  exact List.cons_ne_nil _ _

/-- A text without any blanks. -/
lemma isTrimmed_of_forall (hne : cs ≠ []) (h : ∀ c ∈ cs, isBlank c = false) : IsTrimmed cs := by
  obtain ⟨c, ds, rfl⟩ := List.exists_cons_of_ne_nil hne
  refine ⟨⟨c, ds, rfl, h c List.mem_cons_self⟩, _, _, (List.dropLast_append_getLast hne).symm, ?_⟩
  exact h _ (List.getLast_mem hne)

/-- Anything may stand between two such texts. -/
lemma IsTrimmed.append {es : List Char} (hcs : IsTrimmed cs) (hes : IsTrimmed es) (ds : List Char) :
    IsTrimmed (cs ++ ds ++ es) := by
  obtain ⟨⟨c, cs', rfl, hc⟩, -⟩ := hcs
  obtain ⟨-, es', e, rfl, he⟩ := hes
  exact ⟨⟨c, _, rfl, hc⟩, _, e, (List.append_assoc _ _ _).symm, he⟩

lemma isTrimmed_intercalate {separator : List Char} {texts : List (List Char)} (hne : texts ≠ [])
    (h : ∀ text ∈ texts, IsTrimmed text) : IsTrimmed (separator.intercalate texts) := by
  induction texts with
  | nil => exact absurd rfl hne
  | cons text texts ih =>
      obtain ⟨htext, htexts⟩ := List.forall_mem_cons.1 h
      cases texts with
      | nil => rwa [List.intercalate_singleton]
      | cons next texts =>
          rw [List.intercalate_cons_cons]
          exact htext.append (ih (List.cons_ne_nil _ _) htexts) separator

/-! ### Words -/

/-- Words are not empty. -/
lemma ne_nil_of_mem_words : ∀ word ∈ words cs, word ≠ [] := by
  induction cs with
  | nil => simp [words]
  | cons c cs ih =>
      intro word h
      rw [words] at h
      split at h
      · exact ih word h
      · split at h
        · rename_i hwords
          rcases List.mem_cons.1 h with rfl | h
          · exact List.cons_ne_nil _ _
          · exact ih word (hwords ▸ List.mem_cons_of_mem _ h)
        · rcases List.mem_cons.1 h with rfl | h
          · exact List.cons_ne_nil _ _
          · exact ih word h

/-- Words are parts of the text, without blanks. -/
lemma mem_of_mem_words : ∀ word ∈ words cs, ∀ c ∈ word, c ∈ cs ∧ isBlank c = false := by
  induction cs with
  | nil => simp [words]
  | cons d cs ih =>
      have hrest : ∀ word ∈ words cs, ∀ c ∈ word, c ∈ d :: cs ∧ isBlank c = false :=
        fun word hword c hc => (ih word hword c hc).imp_left (List.mem_cons_of_mem _)
      intro word hword c hc
      rw [words] at hword
      split at hword
      · exact hrest word hword c hc
      next hblank =>
        have hd : d ∈ d :: cs ∧ isBlank d = false := ⟨List.mem_cons_self, by simpa using hblank⟩
        split at hword
        next first others _ hwords =>
          rcases List.mem_cons.1 hword with rfl | hword
          · rcases List.mem_cons.1 hc with rfl | hc
            · exact hd
            · exact hrest first (hwords ▸ List.mem_cons_self) c hc
          · exact hrest word (hwords ▸ List.mem_cons_of_mem _ hword) c hc
        next =>
          rcases List.mem_cons.1 hword with rfl | hword
          · rw [List.mem_singleton.1 hc]
            exact hd
          · exact hrest word hword c hc

/-- A word ends at the first blank. -/
lemma words_append (hne : word ≠ []) (h : ∀ c ∈ word, isBlank c = false)
    (hcs : pauses cs = true) : words (word ++ cs) = word :: words cs := by
  induction word with
  | nil => exact absurd rfl hne
  | cons c word ih =>
      obtain ⟨hc, hword⟩ := List.forall_mem_cons.1 h
      rw [List.cons_append, words, if_neg (by simp [hc])]
      cases word with
      | nil => rw [List.nil_append, hcs]
      | cons d word =>
          rw [ih (List.cons_ne_nil _ _) hword]
          simp [pauses, (List.forall_mem_cons.1 hword).1]

/-- Words with blanks between them are cut apart again. -/
theorem words_intercalate {texts : List (List Char)}
    (h : ∀ word ∈ texts, word ≠ [] ∧ ∀ c ∈ word, isBlank c = false) :
    words ([' '].intercalate texts) = texts := by
  have hblank : ∀ cs, words (' ' :: cs) = words cs := fun cs => by rw [words, if_pos (by decide)]
  induction texts with
  | nil => rfl
  | cons word texts ih =>
      obtain ⟨⟨hne, hword⟩, htexts⟩ := List.forall_mem_cons.1 h
      cases texts with
      | nil =>
          rw [List.intercalate_singleton]
          simpa [words] using words_append hne hword (show pauses [] = true from rfl)
      | cons next texts =>
          rw [List.intercalate_cons_cons, List.append_assoc, List.singleton_append,
            words_append hne hword (show pauses (' ' :: _) = true from by rw [pauses]; decide), hblank,
            ih htexts]

/-! ### Pieces -/

/-- Pieces are parts of the text, without marks. -/
lemma mem_of_mem_pieces : ∀ piece ∈ pieces mark cs, ∀ c ∈ piece, c ∈ cs ∧ c ≠ mark := by
  induction cs with
  | nil => simp [pieces]
  | cons d cs ih =>
      have hrest : ∀ piece ∈ pieces mark cs, ∀ c ∈ piece, c ∈ d :: cs ∧ c ≠ mark :=
        fun piece hpiece c hc => (ih piece hpiece c hc).imp_left (List.mem_cons_of_mem _)
      intro piece hpiece c hc
      rw [pieces] at hpiece
      split at hpiece
      · rcases List.mem_cons.1 hpiece with rfl | hpiece
        · cases hc
        · exact hrest piece hpiece c hc
      next hmark =>
        have hd : d ∈ d :: cs ∧ d ≠ mark := ⟨List.mem_cons_self, hmark⟩
        split at hpiece
        next =>
          obtain rfl := List.mem_singleton.1 hpiece
          rw [List.mem_singleton.1 hc]
          exact hd
        next first others hpieces =>
          rcases List.mem_cons.1 hpiece with rfl | hpiece
          · rcases List.mem_cons.1 hc with rfl | hc
            · exact hd
            · exact hrest first (hpieces ▸ List.mem_cons_self) c hc
          · exact hrest piece (hpieces ▸ List.mem_cons_of_mem _ hpiece) c hc

/-- A text is cut at the first mark. -/
theorem pieces_append (h : mark ∉ cs) (ds : List Char) :
    pieces mark (cs ++ mark :: ds) = cs :: pieces mark ds := by
  induction cs with
  | nil => rw [List.nil_append, pieces, if_pos rfl]
  | cons c cs ih =>
      rw [List.mem_cons, not_or] at h
      rw [List.cons_append, pieces, if_neg (Ne.symm h.1), ih h.2]

/-- A text without marks is one piece. -/
lemma pieces_eq_singleton (h : mark ∉ cs) : pieces mark cs = [cs] := by
  induction cs with
  | nil => rfl
  | cons c cs ih =>
      rw [List.mem_cons, not_or] at h
      rw [pieces, if_neg (Ne.symm h.1), ih h.2]

/-- Texts with marks between them are cut apart again. -/
theorem pieces_intercalate {texts : List (List Char)} (hne : texts ≠ [])
    (h : ∀ text ∈ texts, mark ∉ text) : pieces mark ([mark].intercalate texts) = texts := by
  induction texts with
  | nil => exact absurd rfl hne
  | cons text texts ih =>
      obtain ⟨htext, htexts⟩ := List.forall_mem_cons.1 h
      cases texts with
      | nil => rw [List.intercalate_singleton, pieces_eq_singleton htext]
      | cons next texts =>
          rw [List.intercalate_cons_cons, List.append_assoc, List.singleton_append,
            pieces_append htext, ih (List.cons_ne_nil _ _) htexts]

end DeductiveParsing.Text
