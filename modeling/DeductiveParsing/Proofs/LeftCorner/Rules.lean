/-
The rules of left-corner parsing.

* `LeftCorner.Stacks`, `LeftCorner.Step`: the stacks of an item, and the steps between them;
* `LeftCorner.step_of_fire`, `LeftCorner.exists_fire_of_step`: rules conclude what a step leads to;
* `LeftCorner.isDerivable_iff_reaches`: so something is derivable if steps lead from the input to
  empty stacks.
-/
import DeductiveParsing.Proofs.ContextFree.Derivation
import DeductiveParsing.Proofs.Deduction.Closure
import DeductiveParsing.Schema.ContextFree

namespace DeductiveParsing.LeftCorner

open ContextFree
open LeftCornerRule (mark)
open Relation (ReflTransGen)

/-- The stacks of an item: the completed symbols before the rest of the input, the predicted symbols
and marks, and the left-hand sides of the productions that have been begun. -/
@[ext]
structure Stacks where
  completed : List String
  predicted : List String
  begun : List String

/-- The form of an item. -/
def form (s : Stacks) : Form :=
  [.sequence s.completed, .sequence s.predicted, .sequence s.begun]

variable {W : Type} {g : Grammar} {tokens : List String} {s s' : Stacks}

lemma form_injective (h : form s = form s') : s = s' := by
  obtain ⟨hcompleted, hpredicted, hbegun⟩ : s.completed = s'.completed ∧
      s.predicted = s'.predicted ∧ s.begun = s'.begun := by simpa [form] using h
  exact Stacks.ext hcompleted hpredicted hbegun

lemma fields_of_form {x : Item W} (h : x.form = form s) :
    x.sequence? 0 = some s.completed ∧ x.sequence? 1 = some s.predicted ∧
      x.sequence? 2 = some s.begun := by
  simp [Item.sequence?, Item.field?, h, form]

/-! ### Steps -/

/-- The steps between stacks. A production is begun with its first symbol, and the mark goes behind
the other ones; what is completed is found where it is predicted; and at the mark the left-hand side
is completed. -/
inductive Step (g : Grammar) : Stacks → Stacks → Prop
  | reduce {p : Production} {x b : String} {names completed predicted begun : List String}
      (hp : p ∈ g.productions) (hrhs : p.rhsNames = x :: names) (hb : b ≠ mark) :
      Step g ⟨x :: completed, b :: predicted, begun⟩
        ⟨completed, names ++ mark :: b :: predicted, p.lhs :: begun⟩
  | remove {x : String} {completed predicted begun : List String} (hx : x ≠ mark) :
      Step g ⟨x :: completed, x :: predicted, begun⟩ ⟨completed, predicted, begun⟩
  | move {a : String} {completed predicted begun : List String} :
      Step g ⟨completed, mark :: predicted, a :: begun⟩ ⟨a :: completed, predicted, begun⟩

/-- Whether steps lead from some stacks to others. -/
def Reaches (g : Grammar) : Stacks → Stacks → Prop := ReflTransGen (Step g)

/-- The stacks for an input at the beginning. -/
def initial (g : Grammar) (tokens : List String) : Stacks := ⟨tokens, [g.start], []⟩

/-- The stacks at the end. -/
def final : Stacks := ⟨[], [], []⟩

/-- A rule takes a step, if it begins a production of the grammar or none. -/
lemma step_of_fire {r : LeftCornerRule} {x : Item W} {f : Firing W}
    (hr : ∀ p, r = .reduce p → p ∈ g.productions) (hx : x.form = form s)
    (hf : r.fire [x] = some f) : ∀ y ∈ f.items, ∃ s', y = .ofForm (form s') ∧ Step g s s' := by
  obtain ⟨hcompleted, hpredicted, hbegun⟩ := fields_of_form hx
  obtain ⟨completed, predicted, begun⟩ := s
  simp only [LeftCornerRule.fire, hcompleted, hpredicted, hbegun, Option.bind_eq_bind,
    Option.bind_some] at hf
  split at hf
  case h_1 p a rest b expected =>
    obtain ⟨⟨hb, hhead⟩, hone⟩ := Option.ite_none_right_eq_some.1 hf
    obtain ⟨names, hrhs⟩ := List.head?_eq_some_iff.1 hhead
    rw [hrhs, List.drop_one, List.tail_cons] at hone
    obtain rfl := Option.some.inj hone
    exact fun y hy => ⟨⟨rest, names ++ mark :: b :: expected, p.lhs :: begun⟩,
      List.mem_singleton.1 hy, .reduce (hr p rfl) hrhs hb⟩
  case h_2 a rest b expected =>
    obtain ⟨⟨rfl, ha⟩, hone⟩ := Option.ite_none_right_eq_some.1 hf
    obtain rfl := Option.some.inj hone
    exact fun y hy => ⟨⟨rest, expected, begun⟩, List.mem_singleton.1 hy, .remove ha⟩
  case h_3 m expected a others =>
    obtain ⟨rfl, hone⟩ := Option.ite_none_right_eq_some.1 hf
    obtain rfl := Option.some.inj hone
    exact fun y hy => ⟨⟨a :: completed, expected, others⟩, List.mem_singleton.1 hy, .move⟩
  case h_4 => cases hf

/-- For each step there is a rule that takes it. -/
lemma exists_fire_of_step (h : Step g s s') : ∃ r : LeftCornerRule,
    (∀ p, r = .reduce p → p ∈ g.productions) ∧
      r.fire [.ofForm (form s)] = some ⟨r.name, [.ofForm (W := W) (form s')]⟩ := by
  obtain ⟨hcompleted, hpredicted, hbegun⟩ :=
    fields_of_form (W := W) (x := .ofForm (form s)) rfl
  cases h with
  | @reduce p x b names completed predicted begun hp hrhs hb =>
      refine ⟨.reduce p, fun q hq => LeftCornerRule.reduce.inj hq ▸ hp, ?_⟩
      simp only [LeftCornerRule.fire, hcompleted, hpredicted, hbegun, Option.bind_eq_bind,
        Option.bind_some, hrhs, List.head?_cons, List.drop_one, List.tail_cons]
      exact if_pos ⟨hb, trivial⟩
  | @remove x completed predicted begun hx =>
      refine ⟨.remove, by simp, ?_⟩
      simp only [LeftCornerRule.fire, hcompleted, hpredicted, hbegun, Option.bind_eq_bind,
        Option.bind_some]
      exact if_pos ⟨trivial, hx⟩
  | @move a completed predicted begun =>
      refine ⟨.move, by simp, ?_⟩
      simp only [LeftCornerRule.fire, hcompleted, hpredicted, hbegun, Option.bind_eq_bind,
        Option.bind_some]
      exact if_pos trivial

/-! ### The schema -/

section Schema

variable {schema : Schema W} (hschema : Schema.leftCorner g tokens = .ok schema)
include hschema

lemma hasEmptyProduction_eq_false : g.hasEmptyProduction = false := by
  by_contra hne
  rw [Schema.leftCorner, Bool.eq_true_of_not_eq_false hne] at hschema
  cases hschema

lemma schema_eq : schema = Schema.make [Schema.fact "axiom" (.ofForm (form (initial g tokens)))]
    ((g.productions.map fun p => .leftCorner (.reduce p)) ++
      [.leftCorner .remove, .leftCorner .move]) [.ofForm (form final)] := by
  obtain ⟨-, -, h⟩ := Deduction.bind_eq_ok.1 hschema
  obtain ⟨-, -, h⟩ := Deduction.bind_eq_ok.1 h
  exact (Except.ok.inj h).symm

lemma mem_rules {rule : Rule W} : rule ∈ schema.rules ↔
    ∃ r : LeftCornerRule, rule = .leftCorner r ∧ ∀ p, r = .reduce p → p ∈ g.productions := by
  rw [schema_eq hschema]
  simp only [Schema.make, List.mem_append, List.mem_map, List.mem_cons, List.not_mem_nil, or_false]
  constructor
  · rintro (⟨p, hp, rfl⟩ | rfl | rfl)
    · exact ⟨_, rfl, fun q hq => LeftCornerRule.reduce.inj hq ▸ hp⟩
    · exact ⟨_, rfl, by simp⟩
    · exact ⟨_, rfl, by simp⟩
  · rintro ⟨r, rfl, hr⟩
    cases r with
    | reduce p => exact Or.inl ⟨p, hr p rfl, rfl⟩
    | remove => exact Or.inr (Or.inl rfl)
    | move => exact Or.inr (Or.inr rfl)

variable [Weight W] {F : Set Form}

lemma isClosed_reaches :
    schema.IsClosed {f | ∃ s, f = form s ∧ Reaches g (initial g tokens) s} := by
  constructor
  case axioms_mem =>
    intro a ha x hx
    rw [schema_eq hschema] at ha
    obtain rfl := List.mem_singleton.1 ha
    obtain rfl := List.mem_singleton.1 hx
    exact ⟨_, rfl, .refl⟩
  case rules_mem =>
    intro rule hrule xs f hxs _ hf y hy
    obtain ⟨r, rfl, hr⟩ := (mem_rules hschema).1 hrule
    obtain ⟨hlen, hf⟩ := Rule.fire?_eq_some.1 hf
    obtain ⟨x, rfl⟩ := List.length_eq_one_iff.1 hlen
    obtain ⟨s, hx, hs⟩ := hxs x List.mem_cons_self
    obtain ⟨s', rfl, hstep⟩ := step_of_fire hr hx hf y hy
    exact ⟨s', rfl, hs.tail hstep⟩

/-- A closed set contains all that steps lead to from the input. -/
lemma mem_of_reaches (hF : schema.IsClosed F) (h : Reaches g (initial g tokens) s) :
    form s ∈ F := by
  induction h with
  | refl =>
      refine hF.axioms_mem ⟨"axiom", [.ofForm (form (initial g tokens))]⟩ ?_ _
        (List.mem_singleton_self _)
      rw [schema_eq hschema]
      exact List.mem_singleton_self _
  | tail _ hstep ih =>
      obtain ⟨r, hr, hf⟩ := exists_fire_of_step (W := W) hstep
      exact hF.mem_of_fire ((mem_rules hschema).2 ⟨r, rfl, hr⟩) [_] (by simpa using ih)
        (List.nodup_singleton _) (Rule.fire?_eq_some.2 ⟨rfl, hf⟩) (List.mem_singleton_self _)

/-- When a run has ended, something is derivable if steps lead from the input to empty stacks. -/
lemma isDerivable_iff_reaches {settings : Settings} {fuel : ℕ} {o : Outcome W}
    (h : Deduction.run settings schema fuel = .ok o) :
    o.isDerivable = true ↔ Reaches g (initial g tokens) final := by
  have hrules : ∀ rule ∈ schema.rules, rule.IsUnweighted ∧ rule.IsUnambiguous := by
    intro rule hrule
    obtain ⟨r, rfl, -⟩ := (mem_rules hschema).1 hrule
    exact ⟨trivial, trivial⟩
  obtain ⟨hleast, hderivable⟩ := Deduction.isLeast_and_isDerivable_iff_of_run hrules h
  have hgoals : (∃ x ∈ schema.goals, x.form ∈ o.chart.forms) ↔ form final ∈ o.chart.forms := by
    rw [schema_eq hschema, Schema.exists_goal_make]
    simp [Item.ofForm]
  rw [hderivable, hgoals]
  refine ⟨fun hmem => ?_, mem_of_reaches hschema hleast.1⟩
  obtain ⟨s, hs, hreaches⟩ := hleast.2 (isClosed_reaches hschema) hmem
  rwa [form_injective hs]

end Schema

end DeductiveParsing.LeftCorner
