/-
What the reader of context-free grammars makes sure of.

* `Grammar.IsWellFormed`: symbols are nonterminals exactly if they are declared so, and have names
  that do not stand for the empty string;
* `isWellFormed_of_readContextFree`: every grammar that is read is well-formed;
* `lhs_ne_empty_of_readContextFree`: and has no empty left-hand sides.
-/
import DeductiveParsing.GrammarFile.Reader
import DeductiveParsing.Proofs.Deduction.Folds
import DeductiveParsing.Proofs.Text.Blank

namespace DeductiveParsing

open Deduction (bind_eq_ok exists_of_mem_mapM)

namespace ContextFree.Grammar

/-- Whether the symbols on right-hand sides are nonterminals exactly if they are declared so, and
have names that do not stand for the empty string. -/
structure IsWellFormed (g : Grammar) : Prop where
  classified : ∀ p ∈ g.productions, ∀ s ∈ p.rhs, s = .classify g.nonterminals s.name
  named : ∀ p ∈ g.productions, ∀ s ∈ p.rhs, s.name ≠ epsilon ∧ s.name ≠ ""

variable {g : Grammar} {p : Production} {a : String}

lemma IsWellFormed.mem_nonterminals (hg : g.IsWellFormed) (hp : p ∈ g.productions)
    (ha : .nonterminal a ∈ p.rhs) : a ∈ g.nonterminals := by
  have h := hg.classified p hp _ ha
  rw [Symbol.classify] at h
  split at h
  · rename_i hmem
    simpa [Symbol.name] using hmem
  · cases h

lemma IsWellFormed.not_mem_nonterminals (hg : g.IsWellFormed) (hp : p ∈ g.productions)
    (ha : .terminal a ∈ p.rhs) : a ∉ g.nonterminals := by
  have h := hg.classified p hp _ ha
  rw [Symbol.classify] at h
  split at h
  · cases h
  · rename_i hmem
    simpa [Symbol.name] using hmem

end ContextFree.Grammar

namespace GrammarFile

/-- The symbols of a production that is read. -/
lemma exists_of_readProduction {line : ℕ} {nonterminals : List String} {cs : List Char}
    {p : Production} (h : readProduction line nonterminals cs = .ok p) :
    ∀ s ∈ p.rhs, ∃ name, name ≠ epsilon ∧ name ≠ "" ∧ s = .classify nonterminals name := by
  rw [readProduction] at h
  split at h
  · rename_i q hq
    obtain rfl := Except.ok.inj h
    obtain ⟨⟨lhs, body⟩, -, hq⟩ := Option.bind_eq_some_iff.1 hq
    obtain rfl := Option.some.inj hq
    intro s hs
    obtain ⟨name, hname, rfl⟩ := List.mem_map.1 hs
    obtain ⟨hmem, hne⟩ := List.mem_filter.1 hname
    obtain ⟨word, hword, rfl⟩ := List.mem_map.1 hmem
    refine ⟨_, by simpa using hne, fun hempty => ?_, rfl⟩
    exact Text.ne_nil_of_mem_words word hword
      (String.ofList_inj.1 (hempty.trans String.ofList_nil.symm))
  · cases h

lemma ne_nil_of_splitLastArrow? {cs lhs body : List Char}
    (h : splitLastArrow? cs = some (lhs, body)) : lhs ≠ [] := by
  cases cs with
  | nil => cases h
  | cons c cs =>
      rw [splitLastArrow?] at h
      split at h
      · obtain ⟨rfl, -⟩ := Prod.mk.inj (Option.some.inj h)
        exact List.cons_ne_nil _ _
      · obtain ⟨_, -, h⟩ := Option.map_eq_some_iff.1 h
        obtain ⟨rfl, -⟩ := Prod.mk.inj h
        exact List.cons_ne_nil _ _

/-- There is a left-hand side before an arrow. -/
lemma ne_nil_of_splitArrow? {cs lhs body : List Char} (h : splitArrow? cs = some (lhs, body)) :
    lhs ≠ [] := by
  rw [splitArrow?] at h
  split at h
  · rename_i hafter
    obtain ⟨rfl, -⟩ := Prod.mk.inj (Option.some.inj h)
    intro hnil
    -- what is trimmed does not begin with a blank, so there is nothing before which an arrow stands
    cases htext : Text.trimStart cs with
    | nil =>
        rw [htext] at hafter
        cases hafter
    | cons c rest =>
        simp [htext, Text.isBlank_of_trimStart_eq_cons htext] at hnil
  · obtain ⟨⟨lhs', body'⟩, hsplit, h⟩ := Option.map_eq_some_iff.1 h
    obtain ⟨rfl, -⟩ := Prod.mk.inj h
    exact ne_nil_of_splitLastArrow? hsplit

/-- The productions of a grammar that is read are read one by one. -/
lemma exists_of_readContextFree {file : String} {g : ContextFree.Grammar}
    (h : readContextFree file = .ok g) :
    ∀ p ∈ g.productions, ∃ line cs, readProduction line g.nonterminals cs = .ok p := by
  obtain ⟨sections, -, h⟩ := bind_eq_ok.1 h
  obtain ⟨nonterminals, -, h⟩ := bind_eq_ok.1 h
  obtain ⟨terminals, -, h⟩ := bind_eq_ok.1 h
  obtain ⟨start, -, h⟩ := bind_eq_ok.1 h
  obtain ⟨s, -, h⟩ := bind_eq_ok.1 h
  obtain ⟨productions, hproductions, h⟩ := bind_eq_ok.1 h
  obtain rfl := Except.ok.inj h
  intro p hp
  obtain ⟨entry, -, hread⟩ := exists_of_mem_mapM hproductions p hp
  exact ⟨_, _, hread⟩

/-- The left-hand sides of productions that are read are not empty. -/
lemma lhs_ne_empty_of_readContextFree {file : String} {g : ContextFree.Grammar}
    (h : readContextFree file = .ok g) : ∀ p ∈ g.productions, p.lhs ≠ "" := by
  intro p hp
  obtain ⟨line, cs, hread⟩ := exists_of_readContextFree h p hp
  rw [readProduction] at hread
  split at hread
  · rename_i q hq
    obtain rfl := Except.ok.inj hread
    obtain ⟨⟨lhs, body⟩, hsplit, hq⟩ := Option.bind_eq_some_iff.1 hq
    obtain rfl := Option.some.inj hq
    exact fun hempty => ne_nil_of_splitArrow? hsplit
      (String.ofList_inj.1 (hempty.trans String.ofList_nil.symm))
  · cases hread

lemma name_classify (nonterminals : List String) (name : String) :
    (Symbol.classify nonterminals name).name = name := by
  rw [Symbol.classify]
  split <;> rfl

/-- A grammar whose productions are read one by one is well-formed. -/
lemma isWellFormed_of_readProduction {g : ContextFree.Grammar}
    (h : ∀ p ∈ g.productions, ∃ line cs, readProduction line g.nonterminals cs = .ok p) :
    g.IsWellFormed := by
  have hsymbols : ∀ p ∈ g.productions, ∀ s ∈ p.rhs,
      ∃ name, name ≠ epsilon ∧ name ≠ "" ∧ s = .classify g.nonterminals name := by
    intro p hp
    obtain ⟨line, cs, hread⟩ := h p hp
    exact exists_of_readProduction hread
  constructor
  case classified =>
    intro p hp s hs
    obtain ⟨name, -, -, rfl⟩ := hsymbols p hp s hs
    rw [name_classify]
  case named =>
    intro p hp s hs
    obtain ⟨name, hepsilon, hempty, rfl⟩ := hsymbols p hp s hs
    rw [name_classify]
    exact ⟨hepsilon, hempty⟩

/-- Every grammar that is read is well-formed. -/
theorem isWellFormed_of_readContextFree {file : String} {g : ContextFree.Grammar}
    (h : readContextFree file = .ok g) : g.IsWellFormed :=
  isWellFormed_of_readProduction (exists_of_readContextFree h)

end GrammarFile

end DeductiveParsing
