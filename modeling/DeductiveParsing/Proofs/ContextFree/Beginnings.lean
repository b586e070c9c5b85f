/-
What the forms begin with that a symbol derives.

* `Grammar.Exposes`, `Grammar.Opens`: a sequence, or a production of a symbol, has a symbol behind
  symbols that can be erased;
* `exists_derives_cons_iff`: a symbol begins a form that a sequence derives exactly if productions
  that open with one symbol after another lead to it from one that the sequence exposes;
* `transGen_opens_iff`: one or more such productions lead from a symbol to what begins a form that it
  derives in one or more steps.
-/
import DeductiveParsing.Proofs.ContextFree.Derivation

namespace DeductiveParsing.ContextFree.Grammar

open Relation Rewriting

/-- Whether a sequence has a symbol behind symbols that derive the empty string. -/
def Exposes (g : Grammar) (symbols : List Symbol) (y : Symbol) : Prop :=
  ∃ before after, symbols = before ++ y :: after ∧ g.Derives before []

/-- Whether a production of a symbol exposes another one. -/
def Opens (g : Grammar) (x y : Symbol) : Prop :=
  ∃ p ∈ g.productions, x = .nonterminal p.lhs ∧ g.Exposes p.rhs y

variable {g : Grammar} {p : Production} {us vs rest symbols : List Symbol} {x y : Symbol}

/-! ### Symbols behind erased ones -/

lemma eq_of_singleton_eq_append {left right : List Symbol} (h : [x] = left ++ y :: right) :
    left = [] ∧ x = y ∧ right = [] := by
  cases left with
  | nil =>
      obtain ⟨rfl, hright⟩ := List.cons.inj h
      exact ⟨rfl, rfl, hright.symm⟩
  | cons z left => simp at h

/-- A sequence is erased symbol by symbol. -/
lemma derives_cons_nil_iff : g.Derives (x :: us) [] ↔ g.Derives [x] [] ∧ g.Derives us [] := by
  constructor
  · intro h
    have hunfolds : Unfolds g.Replaces ([x] ++ us) [] := unfolds_iff_derives.2 h
    obtain ⟨ws, vs, heq, hx, hus⟩ := Unfolds.exists_of_append hunfolds
    obtain ⟨rfl, rfl⟩ := List.append_eq_nil_iff.1 heq.symm
    exact ⟨hx.derives, hus.derives⟩
  · rintro ⟨hx, hus⟩
    exact hx.append hus

lemma not_exposes_nil : ¬ g.Exposes [] y := by
  rintro ⟨before, after, heq, -⟩
  simp at heq

/-- A sequence exposes its first symbol, and what the others expose if that can be erased. -/
lemma exposes_cons_iff :
    g.Exposes (x :: symbols) y ↔ x = y ∨ g.Derives [x] [] ∧ g.Exposes symbols y := by
  constructor
  · rintro ⟨before, after, heq, hbefore⟩
    rcases List.cons_eq_append_iff.1 heq with ⟨-, hfirst⟩ | ⟨before, rfl, hlater⟩
    · exact Or.inl (List.cons.inj hfirst).1.symm
    · obtain ⟨hx, hbefore⟩ := derives_cons_nil_iff.1 hbefore
      exact Or.inr ⟨hx, before, after, hlater, hbefore⟩
  · rintro (rfl | ⟨hx, before, after, rfl, hbefore⟩)
    · exact ⟨[], symbols, rfl, .refl []⟩
    · exact ⟨x :: before, after, rfl, derives_cons_nil_iff.2 ⟨hx, hbefore⟩⟩

lemma exposes_singleton_iff : g.Exposes [x] y ↔ x = y := by
  rw [exposes_cons_iff, or_iff_left]
  exact fun h => not_exposes_nil h.2

lemma Exposes.mem (h : g.Exposes symbols y) : y ∈ symbols := by
  obtain ⟨before, after, rfl, -⟩ := h
  exact List.mem_append_right _ List.mem_cons_self

/-- An exposed symbol begins a derived form. -/
lemma Exposes.exists_derives (h : g.Exposes symbols y) :
    ∃ rest, g.Derives symbols (y :: rest) := by
  obtain ⟨before, after, rfl, hbefore⟩ := h
  exact ⟨after, hbefore.append_right (y :: after)⟩

/-! ### Productions that open with symbols -/

/-- The left-hand side of a production becomes its right-hand side in one step. -/
lemma step_of_mem (hp : p ∈ g.productions) : Step g.Replaces [.nonterminal p.lhs] p.rhs := by
  have hstep := Step.replace [] [] (Replaces.of_mem hp)
  rwa [List.nil_append, List.append_nil] at hstep

/-- What is replaced in one step is the left-hand side of a production. -/
lemma exists_of_step (h : Step g.Replaces [x] us) :
    ∃ p ∈ g.productions, x = .nonterminal p.lhs ∧ us = p.rhs := by
  generalize hx : [x] = xs at h
  cases h with
  | @replace left right z zs hz =>
      obtain ⟨rfl, rfl, rfl⟩ := eq_of_singleton_eq_append hx
      obtain ⟨p, hp, rfl, rfl⟩ := hz
      exact ⟨p, hp, rfl, by simp⟩

lemma Opens.exists_transGen (h : g.Opens x y) :
    ∃ rest, TransGen (Step g.Replaces) [x] (y :: rest) := by
  obtain ⟨p, hp, rfl, hexposes⟩ := h
  obtain ⟨rest, hrest⟩ := hexposes.exists_derives
  exact ⟨rest, .head' (step_of_mem hp) hrest⟩

/-- Productions that open with one symbol after another derive a form that begins with the last. -/
lemma exists_transGen_of_opens (h : TransGen g.Opens x y) :
    ∃ rest, TransGen (Step g.Replaces) [x] (y :: rest) := by
  induction h with
  | single h => exact h.exists_transGen
  | tail _ h ih =>
      obtain ⟨rest, hrest⟩ := ih
      obtain ⟨rest', hrest'⟩ := h.exists_transGen
      exact ⟨rest' ++ rest, hrest.trans_left (Derives.append_right rest hrest'.to_reflTransGen)⟩

/-- The symbol with which a sequence begins that another one unfolds to comes from an exposed
symbol. -/
lemma exists_opens_of_unfolds (h : Unfolds g.Replaces us vs) (hvs : vs = y :: rest) :
    ∃ x, g.Exposes us x ∧ ReflTransGen g.Opens x y := by
  induction h generalizing rest with
  | nil => cases hvs
  | keep x _ _ =>
      obtain ⟨rfl, -⟩ := List.cons.inj hvs
      exact ⟨x, exposes_cons_iff.2 (Or.inl rfl), .refl⟩
  | @expand z rhs us xs ys hz hrhs _ ihrhs ihxs =>
      cases us with
      | nil =>
          -- the first symbol is erased
          obtain ⟨x, hexposes, hx⟩ := ihxs hvs
          have herased : g.Derives [z] [] := (Unfolds.expand hz hrhs .nil).derives
          exact ⟨x, exposes_cons_iff.2 (Or.inr ⟨herased, hexposes⟩), hx⟩
      | cons u us =>
          obtain ⟨rfl, -⟩ := List.cons.inj hvs
          obtain ⟨x, hexposes, hx⟩ := ihrhs rfl
          obtain ⟨p, hp, rfl, rfl⟩ := hz
          have hopens : g.Opens (.nonterminal p.lhs) x := ⟨p, hp, rfl, hexposes⟩
          exact ⟨_, exposes_cons_iff.2 (Or.inl rfl), hx.head hopens⟩

/-- A symbol begins a form that a sequence derives exactly if productions that open with one symbol
after another lead to it from an exposed symbol. -/
theorem exists_derives_cons_iff :
    (∃ rest, g.Derives symbols (y :: rest)) ↔
      ∃ x, g.Exposes symbols x ∧ ReflTransGen g.Opens x y := by
  constructor
  · rintro ⟨rest, h⟩
    exact exists_opens_of_unfolds (unfolds_iff_derives.2 h) rfl
  · rintro ⟨x, hexposes, hx⟩
    obtain ⟨rest, hrest⟩ := hexposes.exists_derives
    rcases reflTransGen_iff_eq_or_transGen.1 hx with rfl | hx
    · exact ⟨rest, hrest⟩
    · obtain ⟨rest', hrest'⟩ := exists_transGen_of_opens hx
      exact ⟨rest' ++ rest, hrest.trans (Derives.append_right rest hrest'.to_reflTransGen)⟩

/-- One or more productions that open with one symbol after another lead to what begins a form
derived in one or more steps. -/
theorem transGen_opens_iff :
    TransGen g.Opens x y ↔ ∃ rest, TransGen (Step g.Replaces) [x] (y :: rest) := by
  refine ⟨exists_transGen_of_opens, ?_⟩
  rintro ⟨rest, h⟩
  obtain ⟨us, hstep, hrest⟩ := TransGen.head'_iff.1 h
  obtain ⟨p, hp, rfl, rfl⟩ := exists_of_step hstep
  obtain ⟨z, hexposes, hz⟩ := exists_derives_cons_iff.1 ⟨rest, hrest⟩
  exact .head' ⟨p, hp, rfl, hexposes⟩ hz

end DeductiveParsing.ContextFree.Grammar
