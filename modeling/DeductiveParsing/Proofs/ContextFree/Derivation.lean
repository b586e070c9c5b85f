/-
Derivations of context-free grammars.

* `Grammar.Replaces`: a production allows its right-hand side in the place of its left-hand side;
* `Grammar.Derives`, `Grammar.Generates`: what a sequence of symbols derives, and which inputs the
  start symbol derives;
* `Grammar.Predicts`: which nonterminals may begin behind a part of the input;
* `predicts_iff`: those that occur behind it in what the start symbol derives;
* `Grammar.Surrounds`: which words may stand on both sides of a nonterminal;
* `surrounds_iff`: those between which it occurs in what the start symbol derives;
* `span`: the tokens between two places of an input.
-/
import DeductiveParsing.ContextFree.Grammar
import DeductiveParsing.Proofs.Rewriting

namespace DeductiveParsing

/-! ### Parts of an input -/

/-- The tokens from place `i` up to place `j`. -/
def span (tokens : List String) (i j : ℕ) : List String := (tokens.take j).drop i

lemma span_self (tokens : List String) (i : ℕ) : span tokens i i = [] := by
  simp [span]

lemma span_zero (tokens : List String) (j : ℕ) : span tokens 0 j = tokens.take j := rfl

lemma span_length (tokens : List String) : span tokens 0 tokens.length = tokens := by
  simp [span]

/-- Two parts of an input in a row. -/
lemma span_append {tokens : List String} {i j k : ℕ} (hij : i ≤ j) (hjk : j ≤ k) :
    span tokens i j ++ span tokens j k = span tokens i k := by
  have htake : (tokens.take k).take j = tokens.take j := by
    rw [List.take_take, Nat.min_eq_left hjk]
  have hsplit := List.take_append_drop j (tokens.take k)
  rw [htake] at hsplit
  rw [span, span, span, ← hsplit, List.drop_append, List.drop_append]
  by_cases hlen : tokens.length ≤ j
  · have hnil : (tokens.take k).drop j = [] := List.drop_eq_nil_of_le (by simp; omega)
    simp [hnil]
  · have hj : (tokens.take j).length = j := by simp; omega
    simp [hj, Nat.sub_eq_zero_of_le hij]

lemma length_span {tokens : List String} {i j : ℕ} (hj : j ≤ tokens.length) :
    (span tokens i j).length = j - i := by
  rw [span, List.length_drop, List.length_take, Nat.min_eq_left hj]

/-- What stands before a part of an input, the part, and what stands behind it. -/
lemma eq_append_span (tokens : List String) {i j : ℕ} (hij : i ≤ j) :
    tokens = span tokens 0 i ++ span tokens i j ++ tokens.drop j := by
  rw [span_append (Nat.zero_le i) hij, span_zero, List.take_append_drop]

/-- The token at a place. -/
lemma span_succ {tokens : List String} {j : ℕ} {a : String} (h : tokens[j]? = some a) :
    span tokens j (j + 1) = [a] := by
  obtain ⟨hj, rfl⟩ := List.getElem?_eq_some_iff.1 h
  rw [span, List.take_succ_eq_append_getElem hj, List.drop_append]
  simp [hj.le]

namespace ContextFree

/-- The tokens of an input as terminals. -/
def word (tokens : List String) : List Symbol := tokens.map Symbol.terminal

lemma word_append (u v : List String) : word (u ++ v) = word u ++ word v := List.map_append

namespace Grammar

open Rewriting

/-! ### Derivations -/

/-- Whether a production allows a sequence in the place of a symbol. Only nonterminals are replaced,
by productions whose left-hand side is their name. -/
def Replaces (g : Grammar) (x : Symbol) (rhs : List Symbol) : Prop :=
  ∃ p ∈ g.productions, x = .nonterminal p.lhs ∧ rhs = p.rhs

/-- Whether one sequence of symbols derives another one. -/
def Derives (g : Grammar) : List Symbol → List Symbol → Prop := Rewriting.Derives g.Replaces

/-- Whether the start symbol derives an input. -/
def Generates (g : Grammar) (tokens : List String) : Prop :=
  g.Derives [.nonterminal g.start] (word tokens)

variable {g : Grammar}

lemma Replaces.of_mem {p : Production} (hp : p ∈ g.productions) :
    g.Replaces (.nonterminal p.lhs) p.rhs := ⟨p, hp, rfl, rfl⟩

/-- Without empty productions every right-hand side has symbols. -/
lemma rhs_ne_nil (hempty : g.hasEmptyProduction = false) {p : Production}
    (hp : p ∈ g.productions) : p.rhs ≠ [] := by
  intro hnil
  have hp' := List.any_eq_false.1 hempty p hp
  rw [Production.isEmpty, hnil] at hp'
  exact hp' rfl

/-- A nonterminal derives what a right-hand side of it derives. -/
lemma derives_of_production {p : Production} (hp : p ∈ g.productions) {ws : List Symbol}
    (h : g.Derives p.rhs ws) : g.Derives [.nonterminal p.lhs] ws := by
  have hreplace := Derives.replace [] [] (Replaces.of_mem hp)
  rw [List.nil_append, List.append_nil] at hreplace
  exact hreplace.trans h

lemma not_replaces_terminal (a : String) (rhs : List Symbol) : ¬ g.Replaces (.terminal a) rhs := by
  rintro ⟨p, -, heq, -⟩
  cases heq

/-- Terminals stay what they are. -/
lemma eq_of_derives_word {u : List String} {vs : List Symbol} (h : g.Derives (word u) vs) :
    vs = word u := by
  refine Unfolds.eq_of_forall_not (fun x hx rhs => ?_) (unfolds_iff_derives.2 h)
  obtain ⟨a, -, rfl⟩ := List.mem_map.1 hx
  exact not_replaces_terminal a rhs

/-- Two sequences in a row derive parts of an input apart from one another. -/
lemma exists_of_append_derives_word {us vs : List Symbol} {w : List String}
    (h : g.Derives (us ++ vs) (word w)) :
    ∃ u v, w = u ++ v ∧ g.Derives us (word u) ∧ g.Derives vs (word v) := by
  obtain ⟨us', vs', heq, hus, hvs⟩ := Unfolds.exists_of_append (unfolds_iff_derives.2 h)
  obtain ⟨u, v, rfl, rfl, rfl⟩ := List.map_eq_append_iff.1 heq
  exact ⟨u, v, rfl, hus.derives, hvs.derives⟩

/-- Only the empty sequence is derived from nothing. -/
lemma eq_nil_of_nil_derives {vs : List Symbol} (h : g.Derives [] vs) : vs = [] :=
  Unfolds.eq_of_forall_not (fun _ hx => absurd hx List.not_mem_nil) (unfolds_iff_derives.2 h)

lemma eq_nil_of_derives {w : List String} (h : g.Derives [] (word w)) : w = [] :=
  List.map_eq_nil_iff.1 (eq_nil_of_nil_derives h)

/-- A nonterminal that derives an input does so by one of its productions. -/
lemma exists_of_nonterminal_derives {a : String} {w : List String}
    (h : g.Derives [.nonterminal a] (word w)) :
    ∃ p ∈ g.productions, p.lhs = a ∧ g.Derives p.rhs (word w) := by
  obtain ⟨ws, hws⟩ : ∃ ws, ws = word w := ⟨_, rfl⟩
  have hunfolds := unfolds_iff_derives.2 (hws ▸ h)
  cases hunfolds with
  | keep x hnil => cases w <;> cases hws
  | expand hx hrhs hnil =>
      obtain ⟨p, hp, heq, rfl⟩ := hx
      cases hnil
      rw [List.append_nil] at hws
      exact ⟨p, hp, (Symbol.nonterminal.inj heq).symm, hws ▸ hrhs.derives⟩

/-! ### What may begin behind a part of the input -/

/-- An element of two sequences in a row stands in one of them. -/
lemma occurrence_append_cases {α : Type} {l r left right : List α} {a : α}
    (h : l ++ r = left ++ a :: right) :
    (∃ m, l = left ++ a :: m ∧ right = m ++ r) ∨ ∃ m, left = l ++ m ∧ r = m ++ a :: right := by
  rcases List.append_eq_append_iff.1 h with ⟨m, hleft, hr⟩ | ⟨m, hl, hr⟩
  · exact Or.inr ⟨m, hleft, hr⟩
  · cases m with
    | nil => exact Or.inr ⟨[], by simpa using hl.symm, by simpa using hr.symm⟩
    | cons b m =>
        obtain ⟨rfl, rfl⟩ := List.cons.inj hr
        exact Or.inl ⟨m, hl, rfl⟩

/-- An element of three sequences in a row stands in one of them. -/
lemma occurrence_cases {α : Type} {l xs r left right : List α} {a : α}
    (h : l ++ xs ++ r = left ++ a :: right) :
    (∃ m, l = left ++ a :: m ∧ right = m ++ xs ++ r) ∨
      (∃ m m', left = l ++ m ∧ xs = m ++ a :: m') ∨
        ∃ m, left = l ++ xs ++ m ∧ r = m ++ a :: right := by
  rcases occurrence_append_cases h with ⟨m, hm, rfl⟩ | hr
  · rcases occurrence_append_cases hm with ⟨m', hl, rfl⟩ | ⟨m', hleft, hxs⟩
    · exact Or.inl ⟨m', hl, rfl⟩
    · exact Or.inr (Or.inl ⟨m', m, hleft, hxs⟩)
  · exact Or.inr (Or.inr hr)

/-- Whether a nonterminal may begin behind a part of the input: the start symbol at the beginning,
and what stands in a production behind symbols that derive the part since that has begun. -/
inductive Predicts (g : Grammar) : List String → String → Prop where
  | start : Predicts g [] g.start
  | step {u v : List String} {p : Production} {before after : List Symbol} {b : String}
      (hp : p ∈ g.productions) (hrhs : p.rhs = before ++ .nonterminal b :: after)
      (hu : Predicts g u p.lhs) (hv : g.Derives before (word v)) : Predicts g (u ++ v) b

/-- What stands behind symbols that derive a part of the input may begin there. -/
lemma predicts_of_derives {form left right : List Symbol} {a : String} {u : List String}
    (h : g.Derives [.nonterminal g.start] form) (hform : form = left ++ .nonterminal a :: right)
    (hleft : g.Derives left (word u)) : g.Predicts u a := by
  induction h generalizing left right a u with
  | refl =>
      rcases List.cons_eq_append_iff.1 hform with ⟨rfl, heq⟩ | ⟨l, -, heq⟩
      · obtain rfl : a = g.start := Symbol.nonterminal.inj (List.cons.inj heq).1
        rw [eq_nil_of_derives hleft]
        exact .start
      · simp at heq
  | tail _ hstep ih =>
      cases hstep with
      | @replace l r x xs hx =>
          -- it stood there before the last step, or in what took the place of another nonterminal
          rcases occurrence_cases hform with ⟨m, rfl, -⟩ | ⟨m, m', rfl, rfl⟩ | ⟨m, rfl, rfl⟩
          · exact ih (List.append_assoc _ _ _) hleft
          · obtain ⟨u₁, u₂, rfl, hu₁, hu₂⟩ := exists_of_append_derives_word hleft
            obtain ⟨p, hp, rfl, hrhs⟩ := hx
            exact .step hp hrhs.symm (ih rfl hu₁) hu₂
          · have hm : l ++ x :: (m ++ .nonterminal a :: right) =
                (l ++ x :: m) ++ .nonterminal a :: right := by simp
            exact ih hm ((Derives.replace l m hx).trans hleft)

/-- A nonterminal that may begin behind a part of the input occurs there in what the start symbol
derives, and nowhere else. -/
theorem predicts_iff {u : List String} {a : String} :
    g.Predicts u a ↔
      ∃ right, g.Derives [.nonterminal g.start] (word u ++ .nonterminal a :: right) := by
  constructor
  · intro h
    induction h with
    | start => exact ⟨[], .refl _⟩
    | @step u v p before after b hp hrhs _ hv ih =>
        obtain ⟨right, hright⟩ := ih
        refine ⟨after ++ right, hright.trans ?_⟩
        have hreplace := Derives.replace (word u) right (Replaces.of_mem hp)
        have hbefore := (hv.append_left (word u)).append_right (.nonterminal b :: after ++ right)
        rw [hrhs] at hreplace
        refine hreplace.trans ?_
        simpa [word_append] using hbefore
  · rintro ⟨right, h⟩
    exact predicts_of_derives h rfl (.refl _)

/-! ### What may stand around a nonterminal -/

/-- Whether two words may stand on both sides of a nonterminal: nothing around the start symbol, and
what surrounds a nonterminal, together with what is derived from the symbols on both sides of
another one in a production of it. -/
inductive Surrounds (g : Grammar) : List String → String → List String → Prop where
  | start : Surrounds g [] g.start []
  | step {u u' v v' : List String} {p : Production} {before after : List Symbol} {b : String}
      (hp : p ∈ g.productions) (hrhs : p.rhs = before ++ .nonterminal b :: after)
      (h : Surrounds g u p.lhs v) (hu : g.Derives before (word u'))
      (hv : g.Derives after (word v')) : Surrounds g (u ++ u') b (v' ++ v)

/-- What is derived from the symbols on both sides of a nonterminal surrounds it. -/
lemma surrounds_of_derives {form left right : List Symbol} {a : String} {u v : List String}
    (h : g.Derives [.nonterminal g.start] form) (hform : form = left ++ .nonterminal a :: right)
    (hleft : g.Derives left (word u)) (hright : g.Derives right (word v)) :
    g.Surrounds u a v := by
  induction h generalizing left right a u v with
  | refl =>
      rcases List.cons_eq_append_iff.1 hform with ⟨rfl, heq⟩ | ⟨l, -, heq⟩
      · obtain ⟨hstart, rfl⟩ := List.cons.inj heq
        obtain rfl : a = g.start := Symbol.nonterminal.inj hstart
        rw [eq_nil_of_derives hleft, eq_nil_of_derives hright]
        exact .start
      · simp at heq
  | tail _ hstep ih =>
      cases hstep with
      | @replace l r x xs hx =>
          -- it stood there before the last step, or in what took the place of another nonterminal
          rcases occurrence_cases hform with ⟨m, rfl, rfl⟩ | ⟨m, m', rfl, rfl⟩ | ⟨m, rfl, rfl⟩
          · exact ih (List.append_assoc _ _ _) hleft ((Derives.replace m r hx).trans hright)
          · obtain ⟨u₁, u₂, rfl, hu₁, hu₂⟩ := exists_of_append_derives_word hleft
            obtain rfl : right = m' ++ r := by simpa using hform.symm
            obtain ⟨v₁, v₂, rfl, hv₁, hv₂⟩ := exists_of_append_derives_word hright
            obtain ⟨p, hp, rfl, hrhs⟩ := hx
            exact .step hp hrhs.symm (ih rfl hu₁ hv₂) hu₂ hv₁
          · have hm : l ++ x :: (m ++ .nonterminal a :: right) =
                (l ++ x :: m) ++ .nonterminal a :: right := by simp
            exact ih hm ((Derives.replace l m hx).trans hleft) hright

/-- Two words surround a nonterminal if it occurs between them in what the start symbol derives. -/
theorem surrounds_iff {u v : List String} {a : String} : g.Surrounds u a v ↔
    g.Derives [.nonterminal g.start] (word u ++ .nonterminal a :: word v) := by
  constructor
  · intro h
    induction h with
    | start => exact .refl _
    | @step u u' v v' p before after b hp hrhs _ hu hv ih =>
        have hreplace := ih.trans (Derives.replace (word u) (word v) (Replaces.of_mem hp))
        have hsides := (hu.append (Derives.refl [.nonterminal b])).append hv
        have hparts := (hsides.append_left (word u)).append_right (word v)
        rw [hrhs] at hreplace
        refine hreplace.trans ?_
        simpa [word_append] using hparts
  · intro h
    exact surrounds_of_derives h rfl (.refl _) (.refl _)

end Grammar

end ContextFree

end DeductiveParsing
