/-
What left-corner parsing finds.

* `LeftCorner.Climbs`, `LeftCorner.climbs_of_unfolds`: what a name derives is completed to the name,
  whatever is predicted;
* `LeftCorner.Reads`: how predicted symbols and marks read what is completed;
* `LeftCorner.Step.reads`: a step backwards keeps this, if there are as many marks as productions
  that have been begun;
* `LeftCorner.reaches_iff`: so steps lead from the input to empty stacks if the start symbol derives
  the input by name with productions that have no mark behind their first symbol;
* `LeftCorner.leftCorner_isDerivable_exact`: what is derivable where the mark is no symbol.
-/
import DeductiveParsing.Algorithm
import DeductiveParsing.Proofs.ContextFree.Names
import DeductiveParsing.Proofs.LeftCorner.Termination

namespace DeductiveParsing.LeftCorner

open ContextFree Grammar Rewriting
open LeftCornerRule (mark)
open Relation (ReflTransGen)

/-- The grammar of the productions without the mark behind their first symbol. -/
def unmarked (g : Grammar) : Grammar :=
  { g with productions := g.productions.filter fun p => !(p.rhsNames.drop 1).contains mark }

variable {W : Type} {g : Grammar} {p : Production} {names u w tokens completed predicted
  begun : List String} {s s' : Stacks} {x : String}

lemma mem_unmarked : p ∈ (unmarked g).productions ↔
    p ∈ g.productions ∧ mark ∉ p.rhsNames.drop 1 := by
  simp [unmarked, List.mem_filter]

lemma hasEmptyProduction_unmarked (hempty : g.hasEmptyProduction = false) :
    (unmarked g).hasEmptyProduction = false :=
  List.any_eq_false.2 fun p hp => List.any_eq_false.1 hempty p (mem_unmarked.1 hp).1

/-! ### What is derived is read -/

/-- Whether what stands before the rest of the input is completed to a name, whatever is
predicted. -/
def Climbs (g : Grammar) (x : String) (u : List String) : Prop :=
  ∀ rest b predicted begun, b ≠ mark →
    Reaches g ⟨u ++ rest, b :: predicted, begun⟩ ⟨x :: rest, b :: predicted, begun⟩

/-- Predicted names are found in a row. -/
lemma reaches_of_climbs {us : List (List String)} (h : List.Forall₂ (Climbs g) names us)
    (hnames : mark ∉ names) (rest predicted begun : List String) :
    Reaches g ⟨us.flatten ++ rest, names ++ predicted, begun⟩ ⟨rest, predicted, begun⟩ := by
  induction h with
  | nil => exact .refl
  | @cons x u names us hx _ ih =>
      obtain ⟨hne, hnames⟩ := not_or.1 (fun h => hnames (List.mem_cons.2 h))
      have hclimb := hx (us.flatten ++ rest) x (names ++ predicted) begun (Ne.symm hne)
      rw [← List.append_assoc] at hclimb
      exact (hclimb.tail (.remove (Ne.symm hne))).trans (ih hnames)

/-- What a right-hand side reads is completed to the left-hand side. -/
lemma climbs_of_production {us : List (List String)} (hp : p ∈ (unmarked g).productions)
    (hne : p.rhs ≠ []) (h : List.Forall₂ (Climbs g) p.rhsNames us) :
    Climbs g p.lhs us.flatten := by
  obtain ⟨hp, hmark⟩ := mem_unmarked.1 hp
  intro rest b predicted begun hb
  obtain ⟨x, names, hrhs⟩ : ∃ x names, p.rhsNames = x :: names :=
    List.exists_cons_of_ne_nil (fun hnil => hne (List.map_eq_nil_iff.1 hnil))
  rw [hrhs, List.drop_one, List.tail_cons] at hmark
  rw [hrhs] at h
  cases h with
  | @cons _ u _ us hx hnames =>
      -- the first symbol is completed, the others are predicted, and the mark is reached
      have hclimb := hx (us.flatten ++ rest) b predicted begun hb
      have hnext := reaches_of_climbs hnames hmark rest (mark :: b :: predicted) (p.lhs :: begun)
      rw [← List.append_assoc] at hclimb
      exact ((hclimb.tail (.reduce hp hrhs hb)).trans hnext).tail .move

/-- What names unfold to is completed to them one by one. -/
lemma exists_climbs_of_unfolds (hempty : g.hasEmptyProduction = false)
    (h : Unfolds (unmarked g).ReplacesName names w) :
    ∃ us, w = us.flatten ∧ List.Forall₂ (Climbs g) names us := by
  induction h with
  | nil => exact ⟨[], rfl, .nil⟩
  | keep x _ ih =>
      obtain ⟨us, rfl, hus⟩ := ih
      exact ⟨[x] :: us, rfl, .cons (fun _ _ _ _ _ => .refl) hus⟩
  | expand hx _ _ ihrhs ihnames =>
      obtain ⟨p, hp, rfl, rfl⟩ := hx
      obtain ⟨us, rfl, hus⟩ := ihrhs
      obtain ⟨vs, rfl, hvs⟩ := ihnames
      have hne := rhs_ne_nil hempty (mem_unmarked.1 hp).1
      exact ⟨us.flatten :: vs, rfl, .cons (climbs_of_production hp hne hus) hvs⟩

/-! ### What is read is derived -/

/-- How predicted symbols and marks read what is completed: a symbol derives what it reads by name,
and a mark puts the left-hand side before what is read behind it. -/
inductive Reads (g : Grammar) : List String → List String → List String → Prop
  | nil : Reads g [] [] []
  | symbol {b : String} {u rest predicted begun : List String} (hb : b ≠ mark)
      (hu : (unmarked g).DerivesNames [b] u) (h : Reads g rest predicted begun) :
      Reads g (u ++ rest) (b :: predicted) begun
  | mark {a : String} {completed predicted begun : List String}
      (h : Reads g (a :: completed) predicted begun) :
      Reads g completed (mark :: predicted) (a :: begun)

/-- There are as many marks as productions that have been begun. -/
lemma Reads.length_eq (h : Reads g completed predicted begun) :
    begun.length = predicted.count LeftCornerRule.mark := by
  induction h with
  | nil => rfl
  | symbol hb _ _ ih => rw [ih, List.count_cons_of_ne hb]
  | mark _ ih => rw [List.length_cons, ih, List.count_cons_self]

lemma Reads.exists_of_cons {b : String} (h : Reads g completed (b :: predicted) begun)
    (hb : b ≠ LeftCornerRule.mark) :
    ∃ u rest, completed = u ++ rest ∧ (unmarked g).DerivesNames [b] u ∧
      Reads g rest predicted begun := by
  cases h with
  | symbol _ hu h => exact ⟨_, _, rfl, hu, h⟩
  | mark => exact absurd rfl hb

/-- Names without the mark read what they derive. -/
lemma Reads.exists_of_append (h : Reads g completed (names ++ predicted) begun)
    (hnames : LeftCornerRule.mark ∉ names) :
    ∃ u rest, completed = u ++ rest ∧ (unmarked g).DerivesNames names u ∧
      Reads g rest predicted begun := by
  induction names generalizing completed with
  | nil => exact ⟨[], completed, rfl, .refl [], h⟩
  | cons b names ih =>
      obtain ⟨hb, hnames⟩ := not_or.1 (fun h => hnames (List.mem_cons.2 h))
      obtain ⟨u, completed, rfl, hu, h⟩ := h.exists_of_cons (Ne.symm hb)
      obtain ⟨v, rest, rfl, hv, hrest⟩ := ih h hnames
      exact ⟨u ++ v, rest, (List.append_assoc _ _ _).symm, hu.append hv, hrest⟩

/-- What is read behind a production that has been begun is read before it. -/
lemma Reads.of_begun {b : String} (hempty : g.hasEmptyProduction = false)
    (hp : p ∈ (unmarked g).productions) (hrhs : p.rhsNames = x :: names)
    (hb : b ≠ LeftCornerRule.mark)
    (h : Reads g completed (names ++ LeftCornerRule.mark :: b :: predicted) (p.lhs :: begun)) :
    Reads g (x :: completed) (b :: predicted) begun := by
  have hmark : LeftCornerRule.mark ∉ names := by
    simpa [hrhs] using (mem_unmarked.1 hp).2
  obtain ⟨u, rest, rfl, hu, h⟩ := h.exists_of_append hmark
  -- the predicted symbol reads the left-hand side first
  obtain ⟨v, rest', heq, hv, hrest⟩ : ∃ v rest', p.lhs :: rest = v ++ rest' ∧
      (unmarked g).DerivesNames [b] v ∧ Reads g rest' predicted begun := by
    cases h with
    | symbol hne => exact absurd rfl hne
    | mark h => exact h.exists_of_cons hb
  have hne := ne_nil_of_derivesNames (hasEmptyProduction_unmarked hempty) hv
  obtain ⟨v, rfl, rfl⟩ : ∃ v', v = p.lhs :: v' ∧ rest = v' ++ rest' := by
    rcases List.cons_eq_append_iff.1 heq with ⟨rfl, -⟩ | ⟨v', rfl, hrest⟩
    · exact absurd rfl hne
    · exact ⟨v', rfl, hrest⟩
  have hlhs : (unmarked g).DerivesNames [p.lhs] ([x] ++ u) :=
    derivesNames_of_production hp (hrhs ▸ (Derives.refl [x]).append hu)
  have hall := hv.trans (hlhs.append_right v)
  rw [← List.append_assoc, ← List.cons_append]
  exact .symbol hb hall hrest

/-- There are not more productions that have been begun than marks. -/
def IsBalanced (s : Stacks) : Prop := s.begun.length ≤ s.predicted.count mark

lemma Step.isBalanced (h : Step g s s') (hs : IsBalanced s) : IsBalanced s' := by
  unfold IsBalanced at hs ⊢
  cases h with
  | reduce _ _ hb =>
      simp only [List.length_cons, List.count_append, List.count_cons_self] at hs ⊢
      omega
  | remove hx => simpa only [List.count_cons_of_ne hx] using hs
  | move =>
      simp only [List.length_cons, List.count_cons_self] at hs ⊢
      omega

/-- What is read behind a step is read before it. A production that puts a mark of its own on the
stack would leave more marks than productions that have been begun. -/
lemma Step.reads (hempty : g.hasEmptyProduction = false) (h : Step g s s') (hs : IsBalanced s)
    (hs' : Reads g s'.completed s'.predicted s'.begun) :
    Reads g s.completed s.predicted s.begun := by
  cases h with
  | @reduce p x b names completed predicted begun hp hrhs hb =>
      have hcount := hs'.length_eq
      have hle : begun.length ≤ (b :: predicted).count mark := hs
      simp only [List.length_cons, List.count_append, List.count_cons_self] at hcount
      have hmark : mark ∉ names := List.count_eq_zero.1 (by omega)
      have hmem : p ∈ (unmarked g).productions := mem_unmarked.2 ⟨hp, by simpa [hrhs] using hmark⟩
      exact hs'.of_begun hempty hmem hrhs hb
  | @remove x completed predicted begun hx => exact .symbol hx (.refl [x]) hs'
  | move => exact .mark hs'

lemma reads_of_reaches (hempty : g.hasEmptyProduction = false) (h : Reaches g s final)
    (hs : IsBalanced s) : Reads g s.completed s.predicted s.begun := by
  induction h using ReflTransGen.head_induction_on with
  | refl => exact .nil
  | head hstep _ ih => exact hstep.reads hempty hs (ih (hstep.isBalanced hs))

/-! ### What is derivable -/

/-- Steps lead from the input to empty stacks if the start symbol, which is not the mark, derives
the input by name with productions that have no mark behind their first symbol. -/
theorem reaches_iff (hempty : g.hasEmptyProduction = false) :
    Reaches g (initial g tokens) final ↔
      g.start ≠ mark ∧ (unmarked g).DerivesNames [g.start] tokens := by
  constructor
  · intro h
    have hreads : Reads g tokens [g.start] [] := reads_of_reaches hempty h (Nat.zero_le _)
    have hstart : g.start ≠ mark := by
      intro heq
      rw [heq] at hreads
      have hlen := hreads.length_eq
      simp at hlen
    obtain ⟨u, rest, rfl, hu, hrest⟩ := hreads.exists_of_cons hstart
    cases hrest
    rw [List.append_nil]
    exact ⟨hstart, hu⟩
  · rintro ⟨hstart, hderives⟩
    obtain ⟨us, rfl, hus⟩ := exists_climbs_of_unfolds hempty (unfolds_iff_derives.2 hderives)
    have hreaches := reaches_of_climbs hus (by simpa using hstart.symm) [] [] []
    rwa [List.append_nil] at hreaches

lemma unmarked_eq_self (hmark : ∀ p ∈ g.productions, mark ∉ p.rhsNames.drop 1) :
    unmarked g = g := by
  have hall : g.productions.filter (fun p => !(p.rhsNames.drop 1).contains mark) =
      g.productions := List.filter_eq_self.2 fun p hp => by simpa using hmark p hp
  rw [unmarked, hall]

variable [Weight W] {schema : Schema W} {settings : Settings} {fuel : ℕ} {o : Outcome W}

/-- When a run has ended, something is derivable if the start symbol, which is not the mark, derives
the input by name with productions that have no mark behind their first symbol. -/
lemma isDerivable_iff (hschema : Schema.leftCorner g tokens = .ok schema)
    (h : Deduction.run settings schema fuel = .ok o) :
    o.isDerivable = true ↔ g.start ≠ mark ∧ (unmarked g).DerivesNames [g.start] tokens :=
  (isDerivable_iff_reaches hschema h).trans (reaches_iff (hasEmptyProduction_eq_false hschema))

/-- For every grammar that left-corner parsing accepts, that is without empty productions and left
recursion, and in which the mark is not the start symbol and stands on no right-hand side, and for
every input: when a run has ended, something is derivable iff the start symbol derives the input by
name. -/
theorem leftCorner_isDerivable_exact (hstart : g.start ≠ mark)
    (hmark : ∀ p ∈ g.productions, mark ∉ p.rhsNames)
    (hschema : Algorithm.leftCorner.compileTokens (.contextFree g) tokens = .ok schema)
    (h : Deduction.run settings schema fuel = .ok o) :
    o.isDerivable = true ↔ g.DerivesNames [g.start] tokens := by
  have heq : unmarked g = g :=
    unmarked_eq_self fun p hp hmem => hmark p hp (List.mem_of_mem_drop hmem)
  have hderivable := isDerivable_iff (g := g) hschema h
  rw [heq] at hderivable
  exact hderivable.trans (and_iff_right hstart)

/-- The grammar of letters that are closed in the order in which they were opened. -/
def nestedGrammar : Grammar :=
  ⟨["S"], ["a", "b"], "S", [⟨"S", [.terminal "a", .nonterminal "S", .terminal "b"]⟩,
    ⟨"S", [.terminal "a", .terminal "b"]⟩]⟩

/-- A run on two pairs of letters ends with a derivation. -/
theorem exists_leftCorner_isDerivable_exact_nested :
    nestedGrammar.start ≠ mark ∧ (∀ p ∈ nestedGrammar.productions, mark ∉ p.rhsNames) ∧
      ∃ (schema : Schema Float) (fuel : ℕ) (o : Outcome Float),
        Algorithm.leftCorner.compileTokens (.contextFree nestedGrammar) ["a", "a", "b", "b"] =
            .ok schema ∧
          Deduction.run ⟨.accumulate, none⟩ schema fuel = .ok o ∧ o.isDerivable = true := by
  have hstart : nestedGrammar.start ≠ mark := by decide
  have hmark : ∀ p ∈ nestedGrammar.productions, mark ∉ p.rhsNames := by decide
  obtain ⟨schema, hschema⟩ : ∃ schema : Schema Float,
      Schema.leftCorner nestedGrammar ["a", "a", "b", "b"] = .ok schema :=
    Deduction.exists_of_isOk (by cbv)
  obtain ⟨fuel, o, h⟩ : ∃ fuel o, Deduction.run ⟨.accumulate, none⟩ schema fuel = .ok o :=
    Deduction.exists_run rfl rfl (bounds hmark hschema)
  have hpair : nestedGrammar.DerivesNames ["S"] ["a", "b"] :=
    derivesNames_of_production (p := ⟨"S", [.terminal "a", .terminal "b"]⟩)
      (by simp [nestedGrammar]) (.refl _)
  have hpairs : nestedGrammar.DerivesNames (["a"] ++ ["S"] ++ ["b"])
      (["a"] ++ ["a", "b"] ++ ["b"]) := ((Derives.refl ["a"]).append hpair).append (.refl ["b"])
  exact ⟨hstart, hmark, schema, fuel, o, hschema, h,
    (leftCorner_isDerivable_exact hstart hmark hschema h).2 <| derivesNames_of_production
      (p := ⟨"S", [.terminal "a", .nonterminal "S", .terminal "b"]⟩) (by simp [nestedGrammar])
      hpairs⟩

end DeductiveParsing.LeftCorner
