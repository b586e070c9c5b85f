/-
The rules of top-down parsing.

* `TopDown.fire_scan`, `TopDown.fire_predict`: when they fire;
* `TopDown.scan_eq_some`, `TopDown.predict_eq_some`: what they conclude;
* `TopDown.mem_rules`: the schema;
* `TopDown.preserves`: what holds of the axiom and is preserved by both rules holds of all items.
-/
import DeductiveParsing.Proofs.Deduction.Forests
import DeductiveParsing.Schema.ContextFree

namespace DeductiveParsing.TopDown

open ContextFree

variable {W : Type} {g : Grammar} {tokens : List String} {p : Production}

/-! ### Rules -/

/-- The tree of a production that is not empty. -/
lemma ofProduction_eq (hp : p.rhs ≠ []) :
    Tree.ofProduction p = .branch p.lhs (p.rhsNames.map Tree.leaf) := by
  rw [Tree.ofProduction, if_neg]
  simpa [Production.isEmpty] using hp

/-- The form of an item: what is still to be found, and the number of tokens before it. -/
def form (stack : List String) (i : ℕ) : Form := [.sequence stack, .index i]

lemma form_injective {stack stack' : List String} {i j : ℕ} (h : form stack i = form stack' j) :
    stack = stack' ∧ i = j := by
  simpa [form] using h

lemma fields_of_form {x : Item W} {stack : List String} {i : ℕ} (h : x.form = form stack i) :
    x.sequence? 0 = some stack ∧ x.index? 1 = some i := by
  simp [Item.sequence?, Item.index?, Item.field?, h, form]

section Rules

variable {x : Item W} {f : Firing W} {stack : List String} {a : String} {i n : ℕ}

lemma fire_scan (hx : x.form = form (a :: stack) i) (ha : tokens[i]? = some a) :
    TopDownRule.fire (.scan tokens) [x] =
      some ⟨"scan " ++ a, [.withTrees (form stack (i + 1)) x.trees]⟩ := by
  obtain ⟨hstack, hindex⟩ := fields_of_form hx
  simp only [TopDownRule.fire, hstack, hindex, Option.bind_eq_bind, Option.bind_some]
  rw [if_pos ha]
  rfl

lemma scan_eq_some (hx : x.form = form stack i)
    (h : TopDownRule.fire (.scan tokens) [x] = some f) :
    ∃ top rest, stack = top :: rest ∧ tokens[i]? = some top ∧
      f.items = [.withTrees (form rest (i + 1)) x.trees] := by
  obtain ⟨hstack, hi⟩ := fields_of_form hx
  simp only [TopDownRule.fire, hstack, hi, Option.bind_eq_bind, Option.bind_some] at h
  cases stack with
  | nil => cases h
  | cons top rest =>
      simp only [Option.ite_none_right_eq_some] at h
      exact ⟨top, rest, rfl, h.1, congrArg Firing.items (Option.some.inj h.2).symm⟩

lemma fire_predict (hx : x.form = form (p.lhs :: stack) i) (hi : i ≤ n)
    (hroom : (p.rhsNames ++ stack).length ≤ n - i) :
    TopDownRule.fire (.predict p n) [x] = some ⟨TopDownRule.name (.predict p n),
      [.withTrees (form (p.rhsNames ++ stack) i) (TopDownRule.predictedTrees p x.trees)]⟩ := by
  obtain ⟨hstack, hindex⟩ := fields_of_form hx
  simp only [TopDownRule.fire, hstack, hindex, Option.bind_eq_bind, Option.bind_some]
  rw [if_pos ⟨trivial, hi, hroom⟩]
  rfl

lemma predict_eq_some (hx : x.form = form stack i)
    (h : TopDownRule.fire (.predict p n) [x] = some f) :
    ∃ rest, stack = p.lhs :: rest ∧ i ≤ n ∧ (p.rhsNames ++ rest).length ≤ n - i ∧
      f.items = [.withTrees (form (p.rhsNames ++ rest) i)
        (TopDownRule.predictedTrees p x.trees)] := by
  obtain ⟨hstack, hi⟩ := fields_of_form hx
  simp only [TopDownRule.fire, hstack, hi, Option.bind_eq_bind, Option.bind_some] at h
  cases stack with
  | nil => cases h
  | cons top rest =>
      simp only [Option.ite_none_right_eq_some] at h
      obtain ⟨⟨rfl, hin, hroom⟩, h⟩ := h
      exact ⟨rest, rfl, hin, hroom, congrArg Firing.items (Option.some.inj h).symm⟩

/-- A predicted tree is that of the production, if there are no trees yet, or has it in the place of
an open leaf. -/
lemma mem_predictedTrees {trees : List Tree} {t : Tree} :
    t ∈ TopDownRule.predictedTrees p trees ↔ (trees = [] ∧ t = .ofProduction p) ∨
      ∃ u ∈ trees, u.substituteLeftmost? (.ofProduction p) = some t := by
  rw [TopDownRule.predictedTrees]
  cases trees with
  | nil => simp
  | cons u trees => simp

end Rules

/-! ### The schema -/

section Schema

variable {schema : Schema W} (hschema : Schema.topDown g tokens = .ok schema)
include hschema

lemma hasEmptyProduction_eq_false : g.hasEmptyProduction = false := by
  by_contra hne
  rw [Schema.topDown, Bool.eq_true_of_not_eq_false hne] at hschema
  cases hschema

lemma schema_eq : schema = Schema.make [Schema.fact "axiom" (.ofForm (form [g.start] 0))]
    (.topDown (.scan tokens) ::
      g.productions.map fun p => .topDown (.predict p tokens.length))
    [.ofForm (form [] tokens.length)] := by
  rw [Schema.topDown, hasEmptyProduction_eq_false hschema] at hschema
  exact (Except.ok.inj hschema).symm

lemma mem_rules {rule : Rule W} :
    rule ∈ schema.rules ↔ rule = .topDown (.scan tokens) ∨
      ∃ p ∈ g.productions, rule = .topDown (.predict p tokens.length) := by
  rw [schema_eq hschema]
  simp [Schema.make, eq_comm]

lemma isUnweighted_and_isUnambiguous :
    ∀ rule ∈ schema.rules, rule.IsUnweighted ∧ rule.IsUnambiguous := by
  intro rule hrule
  rcases (mem_rules hschema).1 hrule with rfl | ⟨p, -, rfl⟩ <;> exact ⟨trivial, trivial⟩

/-- What holds of the axiom and is preserved by both rules and by merging is preserved by the
schema. -/
lemma preserves [Weight W] {Holds : Item W → Prop} (hfact : Holds (.ofForm (form [g.start] 0)))
    (hscan : ∀ x f, Holds x → TopDownRule.fire (.scan tokens) [x] = some f →
      ∀ y ∈ f.items, Holds y)
    (hpredict : ∀ p ∈ g.productions, ∀ x f, Holds x →
      TopDownRule.fire (.predict p tokens.length) [x] = some f → ∀ y ∈ f.items, Holds y)
    (hmerge : ∀ x y, Holds x → Holds y → x.form = y.form →
      Holds { x with trees := Forest.merge x.trees y.trees }) : schema.Preserves Holds where
  of_axiom a ha x hx := by
    rw [schema_eq hschema] at ha
    obtain rfl := List.mem_singleton.1 ha
    obtain rfl := List.mem_singleton.1 hx
    exact hfact
  of_fire rule hrule xs f hxs hf := by
    obtain ⟨hlen, hf⟩ := Rule.fire?_eq_some.1 hf
    rcases (mem_rules hschema).1 hrule with rfl | ⟨p, hp, rfl⟩
    · obtain ⟨x, rfl⟩ := List.length_eq_one_iff.1 hlen
      exact hscan x f (hxs x List.mem_cons_self) hf
    · obtain ⟨x, rfl⟩ := List.length_eq_one_iff.1 hlen
      exact hpredict p hp x f (hxs x List.mem_cons_self) hf
  of_merge := hmerge

end Schema

end DeductiveParsing.TopDown
