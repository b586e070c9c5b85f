/-
The order of addresses, and their texts.

* `Address.Precedes`: reading order, in which a node comes before those below it and those to its
  right;
* `Address.path_lt_path_iff`, `Address.compare_eq_lt_iff`: reading order is the lexicographic order
  of paths, and addresses compare in it;
* `Address.read_text_iff`: an address is read from its text exactly if its places are counted from
  one and below the bound of index numerals.
-/
import DeductiveParsing.Proofs.Deduction.Folds
import DeductiveParsing.Proofs.Text.Numeral
import DeductiveParsing.Proofs.Tree.Sites

namespace DeductiveParsing.Address

open Deduction (bind_eq_ok exists_of_mem_mapM mapM_map_eq_ok)

variable {a b : Address} {n m : ℕ} {p q : List ℕ}

/-! ### Order -/

/-- Whether a node at `a` comes before one at `b` in reading order: it is above that one or to the
left of it. -/
def Precedes (a b : Address) : Prop :=
  (a.path <+: b.path ∧ a ≠ b) ∨ Tree.liesLeft a.path b.path = true

/-- Two paths are in the order of their first places, and behind a common place in the order of the
rest. -/
lemma precedes_cons : Precedes ⟨n :: p⟩ ⟨m :: q⟩ ↔ n < m ∨ n = m ∧ Precedes ⟨p⟩ ⟨q⟩ := by
  simp only [Precedes, Tree.liesLeft, List.cons_prefix_cons, ne_eq, mk.injEq, List.cons.injEq,
    Bool.or_eq_true, Bool.and_eq_true, decide_eq_true_eq, beq_iff_eq]
  tauto

/-- Reading order is the lexicographic order of paths. -/
theorem path_lt_path_iff : a.path < b.path ↔ a.Precedes b := by
  obtain ⟨p⟩ := a
  obtain ⟨q⟩ := b
  dsimp only
  induction p generalizing q with
  | nil => cases q <;> simp [Precedes, Tree.liesLeft]
  | cons n p ih =>
      cases q with
      | nil => simp [Precedes, Tree.liesLeft]
      | cons m q => rw [List.cons_lt_cons_iff, ih, precedes_cons]

/-- Two addresses compare like their first places, and behind a common place like the rest. -/
lemma compare_cons : compare (⟨n :: p⟩ : Address) ⟨m :: q⟩ =
    if n < m then .lt else if m < n then .gt else compare (⟨p⟩ : Address) ⟨q⟩ := by
  have hcompare : ∀ p q : List ℕ, compare (⟨p⟩ : Address) ⟨q⟩ = List.compareLex compare p q :=
    fun p q => Ordering.then_eq
  rw [hcompare, hcompare, List.compareLex_cons_cons]
  rcases lt_trichotomy n m with h | rfl | h
  · rw [Nat.compare_eq_lt.2 h, if_pos h]
    rfl
  · simp
  · rw [Nat.compare_eq_gt.2 h, if_neg h.not_gt, if_pos h]
    rfl

/-- Addresses compare in reading order. -/
theorem compare_eq_lt_iff : compare a b = .lt ↔ a.Precedes b := by
  rw [← path_lt_path_iff]
  obtain ⟨p⟩ := a
  obtain ⟨q⟩ := b
  dsimp only
  induction p generalizing q with
  | nil =>
      cases q with
      | nil => decide
      | cons m q => simp [show compare (⟨[]⟩ : Address) ⟨m :: q⟩ = .lt from rfl]
  | cons n p ih =>
      cases q with
      | nil => simp [show compare (⟨n :: p⟩ : Address) ⟨[]⟩ = .gt from rfl]
      | cons m q =>
          rw [compare_cons, List.cons_lt_cons_iff, ← ih]
          rcases lt_trichotomy n m with h | rfl | h
          · simp [h]
          · simp
          · simp [h.not_gt, h, h.ne']

lemma Precedes.not_precedes (h : a.Precedes b) : ¬b.Precedes a := by
  rw [← path_lt_path_iff] at h ⊢
  exact lt_asymm h

lemma Precedes.ne (h : a.Precedes b) : a ≠ b := by
  rintro rfl
  exact h.not_precedes h

/-! ### Text -/

/-- The text of an address other than that of the root. -/
lemma toList_text (hp : p ≠ []) :
    (text ⟨p⟩).toList = ['.'].intercalate (p.map fun n => n.repr.toList) := by
  simp [text, isRoot, hp, String.toList_intercalate, Function.comp_def]

/-- The places that are read are counted from one and below the bound. -/
lemma lt_of_readPlace {whole segment : List Char} (h : readPlace whole segment = .ok n) :
    0 < n ∧ n < Text.indexBound := by
  rw [readPlace] at h
  split at h
  · cases h
  · cases h
  next k hzero hread =>
    obtain rfl := Except.ok.inj h
    rw [Text.readIndex?, Option.filter_eq_some_iff, decide_eq_true_eq] at hread
    exact ⟨Nat.pos_of_ne_zero hzero, hread.2⟩

/-- Such places are read from their numerals. -/
lemma readPlace_repr {whole : List Char} (hpos : 0 < n) (hlt : n < Text.indexBound) :
    readPlace whole n.repr.toList = .ok n := by
  rw [readPlace, Text.readIndex?_repr, if_pos hlt]
  split
  next h => cases h
  next h => exact absurd (Option.some.inj h) hpos.ne'
  next h => rw [Option.some.inj h]

/-- The text of an address is cut into its numerals. -/
lemma read_text (hp : p ≠ []) : read (text ⟨p⟩) = do
    return ⟨← (p.map fun n => n.repr.toList).mapM (readPlace (text ⟨p⟩).toList)⟩ := by
  have hne : p.map (fun n => n.repr.toList) ≠ [] := by simpa using hp
  have hnumeral : ∀ numeral ∈ p.map (fun n => n.repr.toList),
      Text.IsTrimmed numeral ∧ ∀ c ∈ numeral, c.isDigit = true := by
    intro numeral hmem
    obtain ⟨n, -, rfl⟩ := List.mem_map.1 hmem
    exact ⟨Text.isTrimmed_repr n, fun c hc => Text.isDigit_of_mem_repr hc⟩
  have htrim : Text.IsTrimmed (text ⟨p⟩).toList := by
    rw [toList_text hp]
    exact Text.isTrimmed_intercalate hne fun numeral hmem => (hnumeral numeral hmem).1
  -- digits and points are not mistaken for the root
  have hepsilon : text ⟨p⟩ ≠ epsilon := by
    intro heq
    have hletter : 'ε' ∈ (text ⟨p⟩).toList := by rw [heq]; decide
    rw [toList_text hp] at hletter
    rcases Text.mem_of_mem_intercalate hletter with hmark | ⟨numeral, hmem, hc⟩
    · exact absurd hmark (by decide)
    · exact absurd ((hnumeral numeral hmem).2 _ hc) (by decide)
  have hmark : ∀ numeral ∈ p.map (fun n => n.repr.toList), '.' ∉ numeral :=
    fun numeral hmem hdot => absurd ((hnumeral numeral hmem).2 _ hdot) (by decide)
  rw [read, htrim.trim_eq, String.ofList_toList, if_neg (by simpa [hepsilon] using htrim.ne_nil)]
  conv_lhs => rw [toList_text hp, Text.pieces_intercalate hne hmark, ← toList_text hp]

/-- An address is read from its text exactly if its places are counted from one and below the bound
of index numerals. -/
theorem read_text_iff : read a.text = .ok a ↔ ∀ n ∈ a.path, 0 < n ∧ n < Text.indexBound := by
  obtain ⟨p⟩ := a
  by_cases hp : p = []
  · subst hp
    simp [show read (text ⟨[]⟩) = .ok ⟨[]⟩ by decide]
  rw [read_text hp]
  constructor
  · intro h
    obtain ⟨places, hplaces, h⟩ := bind_eq_ok.1 h
    obtain rfl : places = p := congrArg path (Except.ok.inj h)
    intro n hn
    obtain ⟨segment, -, hread⟩ := exists_of_mem_mapM hplaces n hn
    exact lt_of_readPlace hread
  · intro h
    refine bind_eq_ok.2 ⟨p, mapM_map_eq_ok fun n hn => ?_, rfl⟩
    exact readPlace_repr (h n hn).1 (h n hn).2

end DeductiveParsing.Address
