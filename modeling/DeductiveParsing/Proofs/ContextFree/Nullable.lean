/-
Names that derive the empty string.

* `derives_nil_of_production`, `forall_of_unfolds_nil`: a name derives the empty string if all symbols
  of a production of it are names that do, and only by such productions;
* `mem_nullables_iff`, `allNullable_iff`: what the names found to derive the empty string are;
* `erasingRule`, `mem_iff_of_isSettled`: the same names are found in sweeps over the productions;
* `isNullable_exact`: so the names are exact, whatever the order of the productions is.
-/
import DeductiveParsing.Proofs.Closure.Horn
import DeductiveParsing.Proofs.Closure.Sweeps
import DeductiveParsing.Proofs.ContextFree.Derivation

namespace DeductiveParsing.ContextFree.Grammar

open Rewriting

variable {g : Grammar} {p : Production} {symbols us vs : List Symbol} {a : String}

/-! ### Deriving the empty string -/

/-- A sequence derives the empty string if each of its symbols does. -/
lemma derives_nil_of_forall (h : ∀ x ∈ symbols, g.Derives [x] []) : g.Derives symbols [] := by
  induction symbols with
  | nil => exact .refl []
  | cons x symbols ih =>
      obtain ⟨hx, hsymbols⟩ := List.forall_mem_cons.1 h
      exact hx.append (ih hsymbols)

/-- The left-hand side of a production derives the empty string if its right-hand side consists of
names that do. -/
lemma derives_nil_of_production (hp : p ∈ g.productions)
    (h : ∀ x ∈ p.rhs, ∃ b, x = .nonterminal b ∧ g.Derives [.nonterminal b] []) :
    g.Derives [.nonterminal p.lhs] [] := by
  refine derives_of_production hp (derives_nil_of_forall fun x hx => ?_)
  obtain ⟨b, rfl, hb⟩ := h x hx
  exact hb

/-- What goes from right-hand sides to left-hand sides is true of all names in a sequence that
unfolds to nothing, and there are only names in it. -/
lemma forall_of_unfolds_nil {P : String → Prop}
    (hP : ∀ p ∈ g.productions, (∀ x ∈ p.rhs, ∃ b, x = .nonterminal b ∧ P b) → P p.lhs)
    (h : Unfolds g.Replaces us vs) (hvs : vs = []) :
    ∀ x ∈ us, ∃ b, x = .nonterminal b ∧ P b := by
  induction h with
  | nil => exact fun x hx => absurd hx List.not_mem_nil
  | keep x _ _ => cases hvs
  | expand hx _ _ ihrhs ihxs =>
      obtain ⟨hrhs, hxs⟩ := List.append_eq_nil_iff.1 hvs
      obtain ⟨p, hp, rfl, rfl⟩ := hx
      exact List.forall_mem_cons.2 ⟨⟨p.lhs, rfl, hP p hp (ihrhs hrhs)⟩, ihxs hxs⟩

lemma of_derives_nil {P : String → Prop}
    (hP : ∀ p ∈ g.productions, (∀ x ∈ p.rhs, ∃ b, x = .nonterminal b ∧ P b) → P p.lhs)
    (h : g.Derives [.nonterminal a] []) : P a := by
  obtain ⟨b, heq, hb⟩ :=
    forall_of_unfolds_nil hP (unfolds_iff_derives.2 h) rfl _ (List.mem_singleton_self _)
  rwa [Symbol.nonterminal.inj heq]

lemma not_derives_terminal_nil (a : String) : ¬ g.Derives [.terminal a] [] := by
  intro h
  have hnil : [] = word [a] := eq_of_derives_word (u := [a]) h
  cases hnil

/-! ### What clauses find -/

lemma mem_erasingClauses {c : Clause String} :
    c ∈ g.erasingClauses ↔
      ∃ p ∈ g.productions, (∀ x ∈ p.rhs, x.isNonterminal = true) ∧ ⟨p.rhsNames, p.lhs⟩ = c := by
  rw [erasingClauses, List.mem_map]
  refine exists_congr fun p => ?_
  rw [List.mem_filter, List.all_eq_true, and_assoc]

lemma eq_nonterminal_of_isNonterminal {x : Symbol} (h : x.isNonterminal = true) :
    x = .nonterminal x.name := by
  cases x with
  | terminal a => cases h
  | nonterminal a => rfl

/-- The names found to derive the empty string are those that derive it. -/
theorem mem_nullables_iff : a ∈ g.nullables ↔ g.Derives [.nonterminal a] [] := by
  constructor
  · refine Clause.consequences_induction (P := fun a => g.Derives [.nonterminal a] []) ?_ a
    intro c hc hpremises
    obtain ⟨p, hp, hnames, rfl⟩ := mem_erasingClauses.1 hc
    exact derives_nil_of_production hp fun x hx => ⟨x.name,
      eq_nonterminal_of_isNonterminal (hnames x hx), hpremises _ (List.mem_map_of_mem hx)⟩
  · refine of_derives_nil (P := (· ∈ g.nullables)) fun p hp hrhs => ?_
    have hnames : ∀ x ∈ p.rhs, x.isNonterminal = true := by
      intro x hx
      obtain ⟨b, rfl, -⟩ := hrhs x hx
      rfl
    refine Clause.consequences_closed _ (mem_erasingClauses.2 ⟨p, hp, hnames, rfl⟩) fun b hb => ?_
    obtain ⟨x, hx, rfl⟩ := List.mem_map.1 hb
    obtain ⟨c, rfl, hc⟩ := hrhs x hx
    exact hc

lemma isNullable_iff : g.isNullable a = true ↔ g.Derives [.nonterminal a] [] :=
  List.contains_iff_mem.trans mem_nullables_iff

/-- Symbols can all be erased if the sequence of them derives the empty string. -/
lemma allNullable_iff : allNullable g.nullables symbols = true ↔ g.Derives symbols [] := by
  have hsymbols : allNullable g.nullables symbols = true ↔
      ∀ x ∈ symbols, ∃ b, x = .nonterminal b ∧ g.Derives [.nonterminal b] [] := by
    rw [allNullable, List.all_eq_true]
    refine forall₂_congr fun x _ => ?_
    cases x with
    | terminal c => simp
    | nonterminal c => simp [mem_nullables_iff]
  rw [hsymbols]
  constructor
  · intro h
    refine derives_nil_of_forall fun x hx => ?_
    obtain ⟨b, rfl, hb⟩ := h x hx
    exact hb
  · intro h
    exact forall_of_unfolds_nil (fun p hp => derives_nil_of_production hp)
      (unfolds_iff_derives.2 h) rfl

/-! ### What sweeps find -/

/-- A production gives its left-hand side if all symbols of its right-hand side are known names. -/
def erasingRule (p : Production) (known : Finset String) : Finset String :=
  if p.rhs.all fun x => x.isNonterminal && decide (x.name ∈ known) then {p.lhs} else ∅

lemma mem_erasingRule {known : Finset String} :
    a ∈ erasingRule p known ↔ a = p.lhs ∧ ∀ x ∈ p.rhs, ∃ b, x = .nonterminal b ∧ b ∈ known := by
  have hrhs : (p.rhs.all fun x => x.isNonterminal && decide (x.name ∈ known)) = true ↔
      ∀ x ∈ p.rhs, ∃ b, x = .nonterminal b ∧ b ∈ known := by
    rw [List.all_eq_true]
    refine forall₂_congr fun x _ => ?_
    rw [Bool.and_eq_true, decide_eq_true_iff]
    cases x <;> simp [Symbol.isNonterminal, Symbol.name]
  rw [erasingRule]
  split
  · rename_i hall
    rw [Finset.mem_singleton, and_iff_left (hrhs.1 hall)]
  · rename_i hnot
    exact iff_of_false (Finset.notMem_empty a) fun h => hnot (hrhs.2 h.2)

/-- When sweeps over the productions have settled, the known names are those that derive the empty
string. -/
lemma mem_iff_of_isSettled {known : Finset String}
    (h : IsSettled (g.productions.map erasingRule) ∅ known) :
    a ∈ known ↔ g.Derives [.nonterminal a] [] := by
  constructor
  · refine h.induction (fun a => g.Derives [.nonterminal a] [])
      (fun x hx => absurd hx (Finset.notMem_empty x)) ?_ a
    intro rule hrule facts hfacts a ha
    obtain ⟨p, hp, rfl⟩ := List.mem_map.1 hrule
    obtain ⟨rfl, hrhs⟩ := mem_erasingRule.1 ha
    refine derives_nil_of_production hp fun x hx => ?_
    obtain ⟨b, rfl, hb⟩ := hrhs x hx
    exact ⟨b, rfl, hfacts b hb⟩
  · refine of_derives_nil (P := (· ∈ known)) fun p hp hrhs => ?_
    exact h.closed _ (List.mem_map_of_mem hp) (mem_erasingRule.2 ⟨rfl, hrhs⟩)

/-- Sweeps over the productions end, since only left-hand sides are found. -/
lemma exists_sweeps_erasingRule (g : Grammar) :
    ∃ fuel known, sweeps (g.productions.map erasingRule) fuel ∅ = some known := by
  refine exists_sweeps (Finset.empty_subset g.lhsNames.toFinset) ?_
  intro rule hrule facts _ a ha
  obtain ⟨p, hp, rfl⟩ := List.mem_map.1 hrule
  obtain ⟨rfl, -⟩ := mem_erasingRule.1 ha
  exact List.mem_toFinset.2 (List.mem_map_of_mem hp)

/-- For all lists of productions: a name is found to derive the empty string exactly if it does, and
no terminal derives the empty string. Sweeps over the productions in their order, which go on until
one of them finds no new name, end and find the same names. -/
theorem isNullable_exact (g : Grammar) :
    (∀ a, g.isNullable a = true ↔ g.Derives [.nonterminal a] []) ∧
      (∀ a, ¬ g.Derives [.terminal a] []) ∧
      ∃ fuel known, sweeps (g.productions.map erasingRule) fuel ∅ = some known ∧
        ∀ a, a ∈ known ↔ g.isNullable a = true := by
  obtain ⟨fuel, known, h⟩ := exists_sweeps_erasingRule g
  refine ⟨fun a => isNullable_iff, not_derives_terminal_nil, fuel, known, h, fun a => ?_⟩
  exact (mem_iff_of_isSettled (isSettled_of_sweeps h)).trans isNullable_iff.symm

end DeductiveParsing.ContextFree.Grammar
