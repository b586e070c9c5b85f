/-
What parsing by spans finds for grammars in normal form.

* `Cyk.Recognized`: what a span says about the grammar and the input;
* `Cyk.IsNormalSchema.isClosed_trueForms`: no rule concludes anything else;
* `Cyk.IsNormalSchema.generates_of_isDerivable`: so only what the start symbol derives is derivable.
-/
import DeductiveParsing.Proofs.Cyk.Schemas
import DeductiveParsing.Proofs.Deduction.Closure

namespace DeductiveParsing.Cyk

open ContextFree Grammar Rewriting

variable {W : Type} {g : Grammar} {tokens : List String} {x : Item W} {xs : List (Item W)}
  {schema : Schema W} {name : String} {symbols : List Symbol} {i l place stop : ℕ}

/-- What a span says: its name derives the tokens that it covers. -/
structure Recognized (g : Grammar) (tokens : List String) (name : String) (i l : ℕ) : Prop where
  le_length : i + l ≤ tokens.length
  derives : g.Derives [.nonterminal name] (word (span tokens i (i + l)))

/-- The forms of spans that say something true. -/
def trueForms (g : Grammar) (tokens : List String) : Set Form :=
  {f | ∃ name i l, f = form name i l ∧ Recognized g tokens name i l}

lemma form_mem_trueForms : form name i l ∈ trueForms g tokens ↔ Recognized g tokens name i l :=
  form_mem_spanForms (P := Recognized g tokens)

lemma IsLexical.form_mem (h : IsLexical g tokens x) : x.form ∈ trueForms g tokens := by
  cases h with
  | @token p a i hp hrhs htoken =>
      refine form_mem_trueForms.2 ⟨(List.getElem?_eq_some_iff.1 htoken).1, ?_⟩
      rw [span_succ htoken]
      exact derives_of_production hp (hrhs ▸ .refl _)
  | @empty p hp hrhs htokens =>
      refine form_mem_trueForms.2 ⟨Nat.zero_le _, ?_⟩
      rw [span_self]
      exact derives_of_production hp (hrhs ▸ .refl _)

/-- Nonterminals derive what the spans that stand for them cover. -/
lemma Chained.recognized (h : Chained place xs symbols stop)
    (hsymbols : ∀ s ∈ symbols, s.isNonterminal = true)
    (hxs : ∀ x ∈ xs, x.form ∈ trueForms g tokens) :
    g.Derives symbols (word (span tokens place stop)) := by
  induction h with
  | nil =>
      rw [span_self]
      exact .refl []
  | @cons place l stop x s xs symbols hx h ih =>
      obtain ⟨hs, hrest⟩ := List.forall_mem_cons.1 hsymbols
      have hfirst : Recognized g tokens s.name place l :=
        form_mem_trueForms.1 (hx ▸ hxs x List.mem_cons_self)
      have hbehind := ih hrest fun y hy => hxs y (List.mem_cons_of_mem _ hy)
      rw [← span_append (Nat.le_add_right place l) h.le, word_append]
      cases s with
      | terminal a => cases hs
      | nonterminal a => exact hfirst.derives.append hbehind

variable [Weight W]

namespace IsNormalSchema

/-- What a rule concludes from true forms is true, even if it uses one of them twice. -/
lemma mem_trueForms_of_fire (h : IsNormalSchema g tokens schema) {rule : Rule W}
    (hrule : rule ∈ schema.rules) (hxs : ∀ x ∈ xs, x.form ∈ trueForms g tokens) {f : Firing W}
    (hf : rule.fire? xs = some f) : ∀ y ∈ f.items, y.form ∈ trueForms g tokens := by
  intro y hy
  obtain ⟨r, rfl, hr, hp⟩ := h.rules rule hrule
  obtain ⟨hlen, hf⟩ := Rule.fire?_eq_some.1 hf
  have hspans : ∀ x ∈ xs, IsSpan x := isSpan_of_mem_spanForms (P := Recognized g tokens) hxs
  have hroom : ∀ x ∈ xs, ∀ name i l, x.form = form name i l → i + l ≤ tokens.length :=
    fun x hx name i l hform => (form_mem_trueForms.1 (hform ▸ hxs x hx)).le_length
  obtain ⟨order, start, stop, hsub, hchain, hstop, hform⟩ :=
    (concludes_of_fire hr hspans hlen hf y hy).exists_chained hroom
  have hle : start + (stop - start) = stop := Nat.add_sub_of_le hchain.le
  rw [hform]
  refine form_mem_trueForms.2 ⟨hle.trans_le hstop, ?_⟩
  rw [hle]
  exact derives_of_production hp
    (hchain.recognized (h.isNonterminal r hrule) fun x hx => hxs x (hsub x hx))

/-- The true forms are closed under the rules. -/
lemma isClosed_trueForms (h : IsNormalSchema g tokens schema) :
    schema.IsClosed (trueForms g tokens) :=
  ⟨fun a ha x hx => (h.isLexical a ha x hx).form_mem,
    fun _ hrule _ _ hxs _ hf => h.mem_trueForms_of_fire hrule hxs hf⟩

/-- When a run has ended in which something is derivable, the start symbol derives the input. -/
lemma generates_of_isDerivable (h : IsNormalSchema g tokens schema) {settings : Settings} {fuel : ℕ}
    {o : Outcome W} (hrun : Deduction.run settings schema fuel = .ok o)
    (ho : o.isDerivable = true) : g.Generates tokens := by
  obtain ⟨hleast, hderivable⟩ :=
    Deduction.isLeast_and_isDerivable_iff_of_run h.isUnweighted_and_isUnambiguous hrun
  obtain ⟨x, hx, hmem⟩ := hderivable.1 ho
  have htrue := hleast.2 h.isClosed_trueForms hmem
  rw [h.goals x hx] at htrue
  have hderives := (form_mem_trueForms.1 htrue).derives
  rwa [Nat.zero_add, span_length] at hderives

end IsNormalSchema

end DeductiveParsing.Cyk
