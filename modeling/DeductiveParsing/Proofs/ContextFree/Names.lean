/-
Derivations by name. Some algorithms compare names only: to them a token, a terminal and a
nonterminal of one name are the same.

* `Grammar.DerivesNames`: what a sequence of names derives, if a name may be replaced by the names
  of any right-hand side for it;
* `derivesNames_iff_derives`, `generates_iff_derivesNames`: where all left-hand sides are declared
  and the input has no nonterminals in it, this is derivation.
-/
import DeductiveParsing.Proofs.ContextFree.ParseTrees

namespace DeductiveParsing.ContextFree.Grammar

open Rewriting

/-- Whether a production allows names in the place of a name, whatever sort of symbol has it. -/
def ReplacesName (g : Grammar) (a : String) (names : List String) : Prop :=
  ∃ p ∈ g.productions, a = p.lhs ∧ names = p.rhsNames

/-- Whether one sequence of names derives another one. -/
def DerivesNames (g : Grammar) : List String → List String → Prop :=
  Rewriting.Derives g.ReplacesName

variable {g : Grammar} {p : Production} {symbols : List Symbol} {names w tokens : List String}

lemma ReplacesName.of_mem (hp : p ∈ g.productions) : g.ReplacesName p.lhs p.rhsNames :=
  ⟨p, hp, rfl, rfl⟩

/-- A name derives what a right-hand side for it derives. -/
lemma derivesNames_of_production (hp : p ∈ g.productions) (h : g.DerivesNames p.rhsNames w) :
    g.DerivesNames [p.lhs] w := by
  have hreplace := Derives.replace [] [] (ReplacesName.of_mem hp)
  rw [List.nil_append, List.append_nil] at hreplace
  exact hreplace.trans h

/-- Without empty productions nothing gets shorter. -/
lemma length_le_of_derivesNames (hempty : g.hasEmptyProduction = false)
    (h : g.DerivesNames names w) : names.length ≤ w.length := by
  refine (unfolds_iff_derives.2 h).length_le fun x rhs hx => ?_
  obtain ⟨p, hp, -, rfl⟩ := hx
  exact fun hnil => rhs_ne_nil hempty hp (List.map_eq_nil_iff.1 hnil)

/-- Without empty productions every name derives names. -/
lemma ne_nil_of_derivesNames (hempty : g.hasEmptyProduction = false) {a : String}
    (h : g.DerivesNames [a] w) : w ≠ [] :=
  List.length_pos_iff.1 (length_le_of_derivesNames hempty h)

/-- Symbols of the declared sort derive by name what their names unfold to, if that has no
nonterminals in it. -/
lemma unfolds_of_unfolds_names (hg : g.IsWellFormed)
    (hlhs : ∀ p ∈ g.productions, p.lhs ∈ g.nonterminals)
    (h : Unfolds g.ReplacesName names w) (hnames : names = symbols.map Symbol.name)
    (hs : ∀ s ∈ symbols, s.isNonterminal = true ↔ s.name ∈ g.nonterminals)
    (hw : ∀ a ∈ w, a ∉ g.nonterminals) : Unfolds g.Replaces symbols (word w) := by
  induction h generalizing symbols with
  | nil =>
      obtain rfl := List.map_eq_nil_iff.1 hnames.symm
      exact .nil
  | keep x _ ih =>
      obtain ⟨s, rest, rfl, rfl, hrest⟩ := List.map_eq_cons_iff.1 hnames.symm
      rw [List.forall_mem_cons] at hs hw
      cases s with
      | terminal a => exact .keep _ (ih hrest.symm hs.2 hw.2)
      | nonterminal a => exact absurd (hs.1.1 rfl) hw.1
  | expand hx _ _ ihrhs ihxs =>
      obtain ⟨s, rest, rfl, rfl, hrest⟩ := List.map_eq_cons_iff.1 hnames.symm
      obtain ⟨p, hp, hname, rfl⟩ := hx
      rw [List.forall_mem_cons] at hs
      rw [List.forall_mem_append] at hw
      have hbelow := ihrhs rfl (fun s hmem => (hg.declares hp s hmem).2) hw.1
      cases s with
      | terminal a => simpa [Symbol.isNonterminal] using hs.1.2 (hname ▸ hlhs p hp)
      | nonterminal a =>
          obtain rfl : a = p.lhs := hname
          rw [word_append]
          exact .expand (Replaces.of_mem hp) hbelow (ihxs hrest.symm hs.2 hw.2)

/-- Where left-hand sides are declared, symbols of the declared sort derive by name what they
derive, as far as that has no nonterminals in it. -/
theorem derivesNames_iff_derives (hg : g.IsWellFormed)
    (hlhs : ∀ p ∈ g.productions, p.lhs ∈ g.nonterminals)
    (hs : ∀ s ∈ symbols, s.isNonterminal = true ↔ s.name ∈ g.nonterminals)
    (hw : ∀ a ∈ w, a ∉ g.nonterminals) :
    g.DerivesNames (symbols.map Symbol.name) w ↔ g.Derives symbols (word w) := by
  constructor
  · intro h
    exact (unfolds_of_unfolds_names hg hlhs (unfolds_iff_derives.2 h) rfl hs hw).derives
  · intro h
    have hnames : (word w).map Symbol.name = w := by
      rw [word, List.map_map]
      exact List.map_id w
    rw [← hnames]
    refine ((unfolds_iff_derives.2 h).map Symbol.name fun x rhs hx => ?_).derives
    obtain ⟨p, hp, rfl, rfl⟩ := hx
    exact .of_mem hp

/-- Where the start symbol and left-hand sides are declared, an input without nonterminals is
generated if the start symbol derives it by name. -/
lemma generates_iff_derivesNames (hg : g.IsWellFormed) (hstart : g.start ∈ g.nonterminals)
    (hlhs : ∀ p ∈ g.productions, p.lhs ∈ g.nonterminals)
    (htokens : ∀ a ∈ tokens, a ∉ g.nonterminals) :
    g.Generates tokens ↔ g.DerivesNames [g.start] tokens := by
  have hs : ∀ s ∈ [Symbol.nonterminal g.start],
      s.isNonterminal = true ↔ s.name ∈ g.nonterminals := by
    simpa [Symbol.isNonterminal, Symbol.name] using hstart
  exact (derivesNames_iff_derives hg hlhs hs htokens).symm

end DeductiveParsing.ContextFree.Grammar
