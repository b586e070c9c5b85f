/-
Runs of parsing by splits come to an end.

* `Unger.IsBounded`: the items are questions and answers about names of the grammar or the input, for
  the tokens between two places of the input;
* `Unger.isBounded_of_fire`: rules split a span and never leave it;
* `Unger.bounds`: so there are finitely many.
-/
import DeductiveParsing.Proofs.Deduction.Termination
import DeductiveParsing.Proofs.Unger.Rules

namespace DeductiveParsing.Unger

open ContextFree
open UngerRule (asked answered item)

variable {W : Type} {g : Grammar} {tokens : List String} {schema : Schema W}

/-- The names with the marks of questions, and those with the marks of answers. -/
def markedNames (g : Grammar) (tokens : List String) : List String :=
  (g.start :: g.productions.flatMap Production.rhsNames).map asked ++
    (tokens ++ g.lhsNames).map answered

lemma asked_start_mem : asked g.start ∈ markedNames g tokens := by simp [markedNames]

lemma asked_mem {p : Production} (hp : p ∈ g.productions) {b : String} (hb : b ∈ p.rhsNames) :
    asked b ∈ markedNames g tokens :=
  List.mem_append_left _ <| List.mem_map_of_mem <|
    List.mem_cons_of_mem _ <| List.mem_flatMap.2 ⟨p, hp, hb⟩

lemma answered_token_mem {a : String} (ha : a ∈ tokens) : answered a ∈ markedNames g tokens :=
  List.mem_append_right _ (List.mem_map_of_mem (List.mem_append_left _ ha))

lemma answered_lhs_mem {p : Production} (hp : p ∈ g.productions) :
    answered p.lhs ∈ markedNames g tokens :=
  List.mem_append_right _ <| List.mem_map_of_mem <| List.mem_append_right _ <| List.mem_map_of_mem hp

/-- Whether a form is that of a question or an answer about such a name and a span of the input. -/
def IsBounded (g : Grammar) (tokens : List String) (f : Form) : Prop :=
  ∃ name ∈ markedNames g tokens, ∃ i j, f = form name i j ∧ i ≤ tokens.length ∧ j ≤ tokens.length

/-- The places in an item are those of its form. -/
lemma IsBounded.le {x : Item W} (h : IsBounded g tokens x.form) {i j : ℕ}
    (hi : x.index? 1 = some i) (hj : x.index? 2 = some j) :
    i ≤ tokens.length ∧ j ≤ tokens.length := by
  obtain ⟨name, -, i', j', hform, hle⟩ := h
  obtain ⟨-, hi', hj'⟩ := fields_of_form hform
  obtain rfl := Option.some.inj (hi.symm.trans hi')
  obtain rfl := Option.some.inj (hj.symm.trans hj')
  exact hle

/-- There are finitely many such forms. -/
lemma finite_isBounded (g : Grammar) (tokens : List String) :
    {f | IsBounded g tokens f}.Finite := by
  have hplaces := Set.finite_le_nat tokens.length
  refine (((List.finite_toSet (markedNames g tokens)).prod (hplaces.prod hplaces)).image
    fun q => form q.1 q.2.1 q.2.2).subset ?_
  rintro _ ⟨name, hname, i, j, rfl, hi, hj⟩
  exact ⟨(name, i, j), ⟨hname, hi, hj⟩, rfl⟩

variable [Weight W]

/-- Rules lead from such items to such items, which carry no trees. -/
lemma isBounded_of_fire (hschema : Schema.unger g tokens = .ok schema) {rule : Rule W}
    (hrule : rule ∈ schema.rules) {xs : List (Item W)} {f : Firing W}
    (hxs : ∀ x ∈ xs, IsBounded g tokens x.form) (hf : rule.fire? xs = some f) :
    ∀ y ∈ f.items, IsBounded g tokens y.form ∧ y.trees = [] := by
  obtain ⟨hlen, hf⟩ := Rule.fire?_eq_some.1 hf
  intro y hy
  rcases (mem_rules hschema).1 hrule with rfl | ⟨p, hp, rfl | rfl⟩
  · obtain ⟨x, rfl⟩ := List.length_eq_one_iff.1 hlen
    obtain ⟨name, -, i, j, hform, hle⟩ := hxs x List.mem_cons_self
    obtain ⟨a, -, -, ha, hitems⟩ := scan_eq_some hform hf
    rw [hitems, List.mem_singleton] at hy
    subst hy
    exact ⟨⟨_, answered_token_mem (List.mem_of_getElem? ha), i, j, rfl, hle⟩, rfl⟩
  · obtain ⟨x, rfl⟩ := List.length_eq_one_iff.1 hlen
    obtain ⟨name, -, i, j, hform, -, hj⟩ := hxs x List.mem_cons_self
    obtain ⟨b, hb, k, l, rfl, -, hkl, hlj⟩ := predict_eq_some hform hf y hy
    exact ⟨⟨_, asked_mem hp hb, k, l, rfl, by omega, by omega⟩, rfl⟩
  · obtain ⟨question, answers, i, j, hperm, hi, hj, -, -, hitems⟩ := complete_eq_some hf
    rw [hitems, List.mem_singleton] at hy
    subst hy
    have hquestion := hxs question (hperm.subset List.mem_cons_self)
    exact ⟨⟨_, answered_lhs_mem hp, i, j, rfl, hquestion.le hi hj⟩, rfl⟩

/-- Bounds for a run, whatever the grammar. -/
noncomputable def bounds (hschema : Schema.unger g tokens = .ok schema) : schema.Bounds :=
  .ofForms (finite_isBounded g tokens)
    (fun a ha x hx => by
      rw [schema_eq hschema] at ha
      obtain rfl := List.mem_singleton.1 ha
      obtain rfl := List.mem_singleton.1 hx
      exact ⟨⟨_, asked_start_mem, 0, tokens.length, rfl, Nat.zero_le _, le_rfl⟩, rfl⟩)
    fun _ hrule _ _ hxs hf => isBounded_of_fire hschema hrule hxs hf

end DeductiveParsing.Unger
