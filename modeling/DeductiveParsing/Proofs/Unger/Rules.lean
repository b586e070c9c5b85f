/-
The rules of parsing by splits.

* `Unger.Fits`, `Unger.spansFrom_mem_partitions`: which splits are tried;
* `Unger.chained_answerForms`, `Unger.nodup_answerForms`: answers for the parts of a split;
* `Unger.predict_eq_some`, `Unger.scan_eq_some`, `Unger.complete_eq_some`: what the rules conclude;
* `Unger.exists_fire_predict`, `Unger.fire_scan`, `Unger.exists_fire_complete`: when they fire;
* `Unger.mem_rules`: the schema.
-/
import DeductiveParsing.Proofs.Deduction.Folds
import DeductiveParsing.Proofs.Inference.Orders
import DeductiveParsing.Schema.ContextFree

namespace DeductiveParsing.Unger

open ContextFree
open UngerRule (asked answered item)

variable {W : Type} {g : Grammar} {tokens names : List String} {p : Production} {a b name : String}
  {i j : ℕ} {lengths : List ℕ}

/-- The form of a question or an answer about the tokens between two places. -/
def form (name : String) (i j : ℕ) : Form := [.symbol name, .index i, .index j]

lemma form_injective {name' : String} {i' j' : ℕ} (h : form name i j = form name' i' j') :
    name = name' ∧ i = i' ∧ j = j' := by
  simpa [form] using h

lemma fields_of_form {x : Item W} (h : x.form = form name i j) :
    x.symbol? 0 = some name ∧ x.index? 1 = some i ∧ x.index? 2 = some j := by
  simp [Item.symbol?, Item.index?, Item.field?, h, form]

lemma answered_injective (h : answered a = answered b) : a = b := by
  have hlist := congrArg String.toList h
  simpa [answered, ← String.toList_inj] using hlist

/-- Among the names without the mark, the empty one is the only one for which a question is an
answer. -/
lemma eq_empty_of_asked_eq_answered (ha : '•' ∉ a.toList) (h : asked a = answered b) :
    a = "" ∧ b = "" := by
  have hlist : '•' :: a.toList = b.toList ++ ['•'] := by
    simpa [asked, answered] using congrArg String.toList h
  cases hb : b.toList with
  | nil =>
      rw [hb] at hlist
      exact ⟨String.toList_eq_nil_iff.1 (List.cons.inj hlist).2, String.toList_eq_nil_iff.1 hb⟩
  | cons c rest =>
      rw [hb] at hlist
      obtain ⟨-, hrest⟩ := List.cons.inj hlist
      exact absurd (hrest ▸ List.mem_append_right rest (List.mem_singleton_self _)) ha

/-! ### Splits -/

/-- The spans of parts with the given lengths, one behind the other. -/
def spansFrom : ℕ → List ℕ → List (ℕ × ℕ)
  | _, [] => []
  | i, l :: lengths => (i, i + l) :: spansFrom (i + l) lengths

@[simp] lemma length_spansFrom (i : ℕ) (lengths : List ℕ) :
    (spansFrom i lengths).length = lengths.length := by
  induction lengths generalizing i with
  | nil => rfl
  | cons l lengths ih => rw [spansFrom, List.length_cons, List.length_cons, ih]

/-- Whether symbols may stand for parts of given lengths: every part has a token, and that for a
terminal has one only. -/
def Fits (symbols : List Symbol) (lengths : List ℕ) : Prop :=
  List.Forall₂ (fun s l => 1 ≤ l ∧ (s.isTerminal = true → l = 1)) symbols lengths

lemma Fits.one_le {symbols : List Symbol} (h : Fits symbols lengths) : ∀ l ∈ lengths, 1 ≤ l := by
  induction h with
  | nil => exact nofun
  | cons hl _ ih => exact List.forall_mem_cons.2 ⟨hl.1, ih⟩

lemma Fits.length_le_sum {symbols : List Symbol} (h : Fits symbols lengths) :
    symbols.length ≤ lengths.sum := by
  induction h with
  | nil => exact le_rfl
  | @cons s l symbols lengths hl _ ih =>
      have hpos := hl.1
      rw [List.length_cons, List.sum_cons]
      omega

/-- Every split is tried whose parts the symbols may stand for. -/
lemma spansFrom_mem_partitions {symbols : List Symbol} (h : Fits symbols lengths) :
    spansFrom i lengths ∈ UngerRule.partitions symbols i (i + lengths.sum) := by
  induction h generalizing i with
  | nil => simp [UngerRule.partitions, spansFrom]
  | @cons s l symbols lengths hl hrest ih =>
      obtain ⟨hpos, hone⟩ := hl
      -- the other parts leave enough room
      have hroom := Fits.length_le_sum hrest
      have hlength : l ∈ UngerRule.lengths s (i + (l :: lengths).sum - i - symbols.length) := by
        rw [UngerRule.lengths, List.sum_cons]
        split
        · rename_i hterminal
          obtain rfl := hone hterminal
          rw [if_neg (by omega)]
          exact List.mem_singleton_self 1
        · rw [List.mem_range'_1]
          omega
      rw [UngerRule.partitions, List.mem_flatMap]
      refine ⟨l, hlength, List.mem_map.2 ⟨spansFrom (i + l) lengths, ?_, rfl⟩⟩
      rw [List.sum_cons, ← Nat.add_assoc]
      exact ih

/-- The spans of a split lie in the span that is split. -/
lemma le_of_mem_partitions {symbols : List Symbol} {spans : List (ℕ × ℕ)}
    (h : spans ∈ UngerRule.partitions symbols i j) :
    i ≤ j ∧ ∀ q ∈ spans, i ≤ q.1 ∧ q.1 ≤ q.2 ∧ q.2 ≤ j := by
  induction symbols generalizing i spans with
  | nil =>
      rw [UngerRule.partitions] at h
      split at h
      · rename_i heq
        rw [List.mem_singleton.1 h]
        exact ⟨heq.le, nofun⟩
      · cases h
  | cons s symbols ih =>
      obtain ⟨l, -, h⟩ := List.mem_flatMap.1 h
      obtain ⟨rest, hrest, rfl⟩ := List.mem_map.1 h
      obtain ⟨hle, hspans⟩ := ih hrest
      refine ⟨by omega, List.forall_mem_cons.2 ⟨⟨le_rfl, Nat.le_add_right i l, hle⟩, ?_⟩⟩
      intro q hq
      have := hspans q hq
      omega

/-- The forms of the answers for names in given spans. -/
def answerForms (names : List String) (spans : List (ℕ × ℕ)) : List Form :=
  (names.zip spans).map fun q => form (answered q.1) q.2.1 q.2.2

lemma answerForms_cons (b : String) (names : List String) (i l : ℕ) (lengths : List ℕ) :
    answerForms (b :: names) (spansFrom i (l :: lengths)) =
      form (answered b) i (i + l) :: answerForms names (spansFrom (i + l) lengths) := rfl

/-- No question is among the answers for names without the mark. -/
lemma asked_not_mem_answerForms (hplain : ∀ b ∈ names, b ≠ "" ∧ '•' ∉ b.toList)
    (spans : List (ℕ × ℕ)) : form (asked a) i j ∉ answerForms names spans := by
  intro hmem
  obtain ⟨q, hq, heq⟩ := List.mem_map.1 hmem
  obtain ⟨hne, hmark⟩ := hplain q.1 (List.of_mem_zip hq).1
  exact UngerRule.asked_ne_answered hne hmark (form_injective heq).1.symm

lemma length_answerForms {p : Production} (h : Fits p.rhs lengths) :
    (answerForms p.rhsNames (spansFrom i lengths)).length = p.rhs.length := by
  rw [answerForms, List.length_map, List.length_zip, length_spansFrom, ← h.length_eq,
    Production.rhsNames, List.length_map, Nat.min_self]

/-- Answers for parts in a row begin at the first place or behind it. -/
lemma exists_form_of_mem_answerForms {f : Form}
    (hf : f ∈ answerForms names (spansFrom i lengths)) :
    ∃ name k l, f = form name k l ∧ i ≤ k := by
  induction lengths generalizing names i with
  | nil => simp [answerForms, spansFrom] at hf
  | cons l lengths ih =>
      cases names with
      | nil => simp [answerForms] at hf
      | cons b names =>
          rw [answerForms_cons] at hf
          rcases List.mem_cons.1 hf with rfl | hf
          · exact ⟨_, _, _, rfl, le_rfl⟩
          · obtain ⟨name, k, m, rfl, hle⟩ := ih hf
            exact ⟨name, k, m, rfl, by omega⟩

/-- Answers for parts of at least one token are different items. -/
lemma nodup_answerForms (names : List String) (i : ℕ) (hpos : ∀ l ∈ lengths, 1 ≤ l) :
    (answerForms names (spansFrom i lengths)).Nodup := by
  induction lengths generalizing names i with
  | nil => cases names <;> simp [answerForms, spansFrom]
  | cons l lengths ih =>
      cases names with
      | nil => simp [answerForms]
      | cons b names =>
          obtain ⟨hl, hpos⟩ := List.forall_mem_cons.1 hpos
          rw [answerForms_cons]
          refine List.nodup_cons.2 ⟨fun hmem => ?_, ih _ _ hpos⟩
          -- the others begin behind the first one
          obtain ⟨name, k, m, heq, hle⟩ := exists_form_of_mem_answerForms hmem
          obtain ⟨-, rfl, -⟩ := form_injective heq
          omega

/-- Answers for parts in a row follow one another. -/
lemma chained_answerForms (h : names.length = lengths.length) :
    UngerRule.chained i (i + lengths.sum)
      ((answerForms names (spansFrom i lengths)).map (Item.ofForm (W := W)))
      (names.map answered) = true := by
  induction lengths generalizing names i with
  | nil =>
      obtain rfl := List.length_eq_zero_iff.1 h
      simp [answerForms, UngerRule.chained]
  | cons l lengths ih =>
      cases names with
      | nil => simp at h
      | cons b names =>
          obtain ⟨hname, hi, hj⟩ := fields_of_form (W := W)
            (x := .ofForm (form (answered b) i (i + l))) rfl
          rw [answerForms_cons, List.map_cons, List.map_cons, UngerRule.chained,
            if_pos ⟨hname, hi⟩, hj, List.sum_cons, ← Nat.add_assoc]
          exact ih (by simpa using h)

/-! ### What the rules conclude -/

section Rules

variable {x question : Item W} {xs answers : List (Item W)} {f : Firing W}

lemma eq_asked_of_askedName? (h : UngerRule.askedName? name = some a) : name = asked a := by
  rw [UngerRule.askedName?] at h
  split at h
  · rename_i rest hlist
    obtain rfl := Option.some.inj h
    rw [← String.toList_inj, hlist]
    simp [asked]
  · cases h

lemma askedName?_asked (a : String) : UngerRule.askedName? (asked a) = some a := by
  simp [UngerRule.askedName?, asked]

/-- A prediction asks for the symbols of the production, about spans in the span in question. -/
lemma predict_eq_some (hx : x.form = form name i j)
    (h : UngerRule.fire (.predict p) [x] = some f) :
    ∀ y ∈ f.items, ∃ b ∈ p.rhsNames, ∃ k l,
      y = item (asked b) k l ∧ i ≤ k ∧ k ≤ l ∧ l ≤ j := by
  obtain ⟨hname, hi, hj⟩ := fields_of_form hx
  simp only [UngerRule.fire, hname, hi, hj, Option.bind_eq_bind, Option.bind_some,
    Option.ite_none_right_eq_some, Firing.ofItems] at h
  obtain ⟨-, h⟩ := h
  intro y hy
  split at h
  · cases h
  · obtain rfl := Option.some.inj h
    obtain ⟨spans, hspans, hy⟩ := List.mem_flatMap.1 (Choice.mem_of_mem_distinctBy hy)
    obtain ⟨⟨b, k, l⟩, hmem, rfl⟩ := List.mem_map.1 hy
    obtain ⟨hb, hspan⟩ := List.of_mem_zip hmem
    split at hspans
    · cases hspans
    · exact ⟨b, hb, k, l, rfl, (le_of_mem_partitions hspans).2 _ hspan⟩

lemma scan_eq_some (hx : x.form = form name i j)
    (h : UngerRule.fire (.scan tokens) [x] = some f) :
    ∃ a, name = asked a ∧ j = i + 1 ∧ tokens[i]? = some a ∧
      f.items = [item (answered a) i j] := by
  obtain ⟨hname, hi, hj⟩ := fields_of_form hx
  simp only [UngerRule.fire, hname, hi, hj, Option.bind_eq_bind, Option.bind_some,
    Option.bind_eq_some_iff, Option.ite_none_right_eq_some] at h
  obtain ⟨a, ha, ⟨hlength, htoken⟩, h⟩ := h
  exact ⟨a, eq_asked_of_askedName? ha, hlength, htoken,
    congrArg Firing.items (Option.some.inj h).symm⟩

/-- A completion finds a question and answers that follow one another, in some order. -/
lemma complete_eq_some (h : UngerRule.fire (.complete p) xs = some f) :
    ∃ question answers i j, (question :: answers).Perm xs ∧ question.index? 1 = some i ∧
      question.index? 2 = some j ∧ question.symbol? 0 = some (asked p.lhs) ∧
      UngerRule.chained i j answers (p.rhsNames.map answered) = true ∧
      f.items = [item (answered p.lhs) i j] := by
  obtain ⟨order, horder, hanswer⟩ := List.exists_of_findSome?_eq_some h
  obtain ⟨question, answers, i, j, rfl, hi, hj, hasked, hchained, rfl⟩ :=
    UngerRule.answer?_eq_some hanswer
  exact ⟨question, answers, i, j, (Choice.mem_walks_length.1 horder).1, hi, hj, hasked, hchained,
    rfl⟩

/-! ### When the rules fire -/

lemma exists_fire_predict (hx : x.form = form (asked p.lhs) i j) (hp : p.rhs ≠ [])
    {spans : List (ℕ × ℕ)} (hspans : spans ∈ UngerRule.partitions p.rhs i j) {q : String × ℕ × ℕ}
    (hq : q ∈ p.rhsNames.zip spans) :
    ∃ f, UngerRule.fire (.predict p) [x] = some f ∧
      form (asked q.1) q.2.1 q.2.2 ∈ f.items.map Item.form := by
  obtain ⟨hname, hi, hj⟩ := fields_of_form hx
  have hempty : p.isEmpty = false := by simpa [Production.isEmpty] using hp
  obtain ⟨y, hy, hform⟩ : ∃ y ∈ UngerRule.questions (W := W) p i j,
      y.form = form (asked q.1) q.2.1 q.2.2 := by
    rw [UngerRule.questions, hempty, if_neg Bool.false_ne_true]
    exact Choice.exists_mem_distinctBy (x := item (asked q.1) q.2.1 q.2.2)
      (List.mem_flatMap.2 ⟨spans, hspans, List.mem_map.2 ⟨q, hq, rfl⟩⟩)
  have hne : (UngerRule.questions (W := W) p i j).isEmpty ≠ true := by
    simpa using List.ne_nil_of_mem hy
  refine ⟨⟨UngerRule.name (.predict p), UngerRule.questions p i j⟩, ?_,
    List.mem_map.2 ⟨y, hy, hform⟩⟩
  simp only [UngerRule.fire, hname, hi, hj, Option.bind_eq_bind, Option.bind_some]
  rw [if_pos trivial, Firing.ofItems, if_neg hne]

lemma fire_scan (hx : x.form = form (asked a) i (i + 1)) (ha : tokens[i]? = some a) :
    UngerRule.fire (.scan tokens) [x] =
      some ⟨"scan " ++ a, [item (answered a) i (i + 1)]⟩ := by
  obtain ⟨hname, hi, hj⟩ := fields_of_form hx
  simp only [UngerRule.fire, hname, hi, hj, askedName?_asked, Option.bind_eq_bind,
    Option.bind_some]
  exact if_pos ⟨trivial, ha⟩

/-- Whatever order of a question and answers that follow one another is found first, it is this
question that is answered. -/
lemma exists_fire_complete (hplain : UngerRule.HasPlainNames p)
    (hquestion : question.form = form (asked p.lhs) i j)
    (hlength : answers.length = p.rhs.length)
    (hchained : UngerRule.chained i j answers (p.rhsNames.map answered) = true) :
    ∃ f, UngerRule.fire (.complete p) (question :: answers) = some f ∧
      f.items = [item (answered p.lhs) i j] := by
  obtain ⟨hname, hi, hj⟩ := fields_of_form hquestion
  have hlength' : answers.length = (p.rhsNames.map answered).length := by
    simpa [Production.rhsNames] using hlength
  have hwalk : question :: answers ∈ UngerRule.answerOrders p (question :: answers) := by
    refine Choice.mem_walks_length.2 ⟨.refl _, ?_⟩
    have hstep : UngerRule.Progress.step p .unasked question =
        some (.awaiting i (p.rhsNames.map answered)) := by
      simp [UngerRule.Progress.step, hname, hi]
    rw [List.foldlM_cons, hstep]
    exact UngerRule.isSome_foldlM_step hlength' hchained
  have hanswer : (UngerRule.answer? p (question :: answers)).isSome := by
    simp [UngerRule.answer?, hname, hi, hj, hchained, Firing.one]
  obtain ⟨f, hf⟩ : ∃ f, UngerRule.fire (.complete p) (question :: answers) = some f :=
    Option.isSome_iff_exists.1 (List.findSome?_isSome_iff.2 ⟨_, hwalk, hanswer⟩)
  refine ⟨f, hf, ?_⟩
  obtain ⟨q, as, k, l, hperm, hk, hl, hasked, -, hitems⟩ := complete_eq_some hf
  -- no answer is taken for the question
  obtain rfl : q = question := by
    rcases List.mem_cons.1 (hperm.subset List.mem_cons_self) with hq | hq
    · exact hq
    · obtain ⟨part, hpart, hsymbol⟩ := UngerRule.symbol?_of_chained hlength' hchained q hq
      obtain ⟨b, hb, rfl⟩ := List.mem_map.1 hpart
      obtain ⟨hne, hmark⟩ := hplain b (List.mem_cons_of_mem _ hb)
      exact absurd (Option.some.inj (hasked.symm.trans hsymbol))
        (UngerRule.asked_ne_answered hne hmark)
  obtain rfl : i = k := Option.some.inj (hi.symm.trans hk)
  obtain rfl : j = l := Option.some.inj (hj.symm.trans hl)
  exact hitems

end Rules

/-! ### The schema -/

section Schema

variable {schema : Schema W} (hschema : Schema.unger g tokens = .ok schema)
include hschema

lemma hasEmptyProduction_eq_false : g.hasEmptyProduction = false := by
  by_contra hne
  rw [Schema.unger, Bool.eq_true_of_not_eq_false hne] at hschema
  cases hschema

lemma schema_eq : schema =
    Schema.make [Schema.fact "axiom" (item (asked g.start) 0 tokens.length)]
      (.unger (.scan tokens) ::
        g.productions.flatMap fun p => [.unger (.predict p), .unger (.complete p)])
      [item (answered g.start) 0 tokens.length] := by
  obtain ⟨-, -, hok⟩ := Deduction.bind_eq_ok.1 hschema
  obtain ⟨-, -, hok⟩ := Deduction.bind_eq_ok.1 hok
  exact (Except.ok.inj hok).symm

lemma mem_rules {rule : Rule W} :
    rule ∈ schema.rules ↔ rule = .unger (.scan tokens) ∨
      ∃ p ∈ g.productions, rule = .unger (.predict p) ∨ rule = .unger (.complete p) := by
  rw [schema_eq hschema]
  simp [Schema.make]

lemma isUnweighted_and_isUnambiguous (hplain : ∀ p ∈ g.productions, UngerRule.HasPlainNames p) :
    ∀ rule ∈ schema.rules, rule.IsUnweighted ∧ rule.IsUnambiguous := by
  intro rule hrule
  rcases (mem_rules hschema).1 hrule with rfl | ⟨p, hp, rfl | rfl⟩
  · exact ⟨trivial, trivial⟩
  · exact ⟨trivial, trivial⟩
  · exact ⟨trivial, hplain p hp⟩

end Schema

end DeductiveParsing.Unger
