/-
What Earley parsing finds.

* `Earley.Recognized`: what an item says about the grammar and the input;
* `Earley.isClosed_recognized`: no rule concludes anything else;
* `Earley.mem_of_recognized`: a closed set contains all items that say something true;
* `Earley.earley_chart_exact`: the chart at the end of a run holds exactly those.
-/
import DeductiveParsing.Proofs.ContextFree.Derivation
import DeductiveParsing.Proofs.Deduction.Closure
import DeductiveParsing.Schema.ContextFree

namespace DeductiveParsing.Earley

open ContextFree Grammar Rewriting

variable {W : Type} {g : Grammar} {tokens : List String}

/-- The form of an item. -/
def form (d : Dotted) (i j : ℕ) : Form := [.dotted d, .index i, .index j]

/-- What an item says: the symbols before the dot of a production derive the tokens between two
places, and the left-hand side may begin at the first, that is, the start symbol derives something
in which it stands behind exactly the tokens before that place. -/
structure Recognized (g : Grammar) (tokens : List String) (d : Dotted) (i j : ℕ) : Prop where
  production_mem : d.production ∈ g.productions
  dot_le : d.dot ≤ d.production.rhs.length
  le : i ≤ j
  le_length : j ≤ tokens.length
  derives : g.Derives (d.production.rhs.take d.dot) (word (span tokens i j))
  predicted : ∃ right, g.Derives [.nonterminal g.start]
    (word (span tokens 0 i) ++ .nonterminal d.production.lhs :: right)

/-! ### What the rules conclude -/

/-- The fields of an item with the form of an Earley item. -/
lemma fields_of_form {x : Item W} {d : Dotted} {i j : ℕ} (h : x.form = form d i j) :
    x.dotted? 0 = some d ∧ x.index? 1 = some i ∧ x.index? 2 = some j := by
  simp [Item.dotted?, Item.index?, Item.field?, h, form]

lemma advance?_eq_some {d d' : Dotted} :
    d.advance? = some d' ↔ d.dot < d.production.rhs.length ∧ d' = ⟨d.production, d.dot + 1⟩ := by
  simp [Dotted.advance?, Dotted.isActive, eq_comm]

lemma dot_lt_of_next? {d : Dotted} {s : Symbol} (h : d.next? = some s) :
    d.dot < d.production.rhs.length := (List.getElem?_eq_some_iff.1 h).1

lemma take_succ_of_next? {d : Dotted} {s : Symbol} (h : d.next? = some s) :
    d.production.rhs.take (d.dot + 1) = d.production.rhs.take d.dot ++ [s] := by
  obtain ⟨hlt, rfl⟩ := List.getElem?_eq_some_iff.1 h
  rw [List.take_succ_eq_append_getElem hlt]

/-- The symbol behind the dot begins what is left of the right-hand side. -/
lemma next?_of_drop_eq_cons {d : Dotted} {s : Symbol} {rest : List Symbol}
    (h : d.production.rhs.drop d.dot = s :: rest) :
    d.next? = some s ∧ d.production.rhs.drop (d.dot + 1) = rest := by
  refine ⟨?_, ?_⟩
  · rw [Dotted.next?, ← List.head?_drop, h]
    rfl
  · rw [← List.tail_drop, h]
    rfl

lemma items_of_scan {x : Item W} {f : Firing W} {d : Dotted} {i j : ℕ} (hx : x.form = form d i j)
    (h : (EarleyRule.scan tokens).fire [x] = some f) :
    ∃ a, d.next? = some (.terminal a) ∧ tokens[j]? = some a ∧
      f.items = [EarleyRule.item ⟨d.production, d.dot + 1⟩ i (j + 1) x.trees] := by
  obtain ⟨hd, hi, hj⟩ := fields_of_form hx
  simp only [EarleyRule.fire, hd, hi, hj, Option.bind_eq_bind, Option.bind_some,
    Option.bind_eq_some_iff] at h
  obtain ⟨d', hadvance, h⟩ := h
  obtain ⟨-, rfl⟩ := advance?_eq_some.1 hadvance
  split at h
  · rename_i a hnext
    obtain ⟨htoken, h⟩ := Option.ite_none_right_eq_some.1 h
    exact ⟨a, hnext, htoken, by rw [← Option.some.inj h]⟩
  · cases h

lemma scan_eq_some {x : Item W} {f : Firing W} {d : Dotted} {i j : ℕ} (hx : x.form = form d i j)
    (h : (EarleyRule.scan tokens).fire [x] = some f) :
    ∃ a, d.next? = some (.terminal a) ∧ tokens[j]? = some a ∧
      f.items.map Item.form = [form ⟨d.production, d.dot + 1⟩ i (j + 1)] := by
  obtain ⟨a, hnext, htoken, hitems⟩ := items_of_scan hx h
  exact ⟨a, hnext, htoken, by rw [hitems]; rfl⟩

lemma items_of_predict {p : Production} {x : Item W} {f : Firing W} {d : Dotted} {i j : ℕ}
    (hx : x.form = form d i j) (h : (EarleyRule.predict p).fire [x] = some f) :
    d.next? = some (.nonterminal p.lhs) ∧
      f.items = [EarleyRule.item (.ofProduction p) j j [Tree.ofProduction p]] := by
  obtain ⟨hd, -, hj⟩ := fields_of_form hx
  simp only [EarleyRule.fire, hd, hj, Option.bind_eq_bind, Option.bind_some,
    Option.ite_none_right_eq_some] at h
  exact ⟨h.1, by rw [← Option.some.inj h.2]⟩

lemma predict_eq_some {p : Production} {x : Item W} {f : Firing W} {d : Dotted} {i j : ℕ}
    (hx : x.form = form d i j) (h : (EarleyRule.predict p).fire [x] = some f) :
    d.next? = some (.nonterminal p.lhs) ∧
      f.items.map Item.form = [form (.ofProduction p) j j] := by
  obtain ⟨hnext, hitems⟩ := items_of_predict hx h
  exact ⟨hnext, by rw [hitems]; rfl⟩

/-- The trees with a tree of `done` in the place of the first open leaf for it in a tree of
`active`. -/
def completions (active done : List Tree) : List Tree :=
  Choice.distinct (active.flatMap fun t => Forest.fill t [done])

lemma items_of_completeWith {x y : Item W} {f : Firing W} {d d' : Dotted} {i j j' k : ℕ}
    (hx : x.form = form d i j) (hy : y.form = form d' j' k)
    (h : EarleyRule.completeWith x y = some f) :
    j = j' ∧ d'.isActive = false ∧ d.next? = some (.nonterminal d'.production.lhs) ∧
      f.items = [EarleyRule.item ⟨d.production, d.dot + 1⟩ i k (completions x.trees y.trees)] := by
  obtain ⟨hd, hi, hj⟩ := fields_of_form hx
  obtain ⟨hd', hj', hk⟩ := fields_of_form hy
  simp only [EarleyRule.completeWith, hd, hi, hj, hd', hj', hk, Option.bind_eq_bind,
    Option.bind_some, Option.ite_none_right_eq_some, Option.bind_eq_some_iff] at h
  obtain ⟨⟨hplace, hdone, hnext⟩, advanced, hadvance, h⟩ := h
  obtain ⟨-, rfl⟩ := advance?_eq_some.1 hadvance
  exact ⟨hplace, hdone, hnext, by rw [← Option.some.inj h]; rfl⟩

lemma completeWith_eq_some {x y : Item W} {f : Firing W} {d d' : Dotted} {i j j' k : ℕ}
    (hx : x.form = form d i j) (hy : y.form = form d' j' k)
    (h : EarleyRule.completeWith x y = some f) :
    j = j' ∧ d'.isActive = false ∧ d.next? = some (.nonterminal d'.production.lhs) ∧
      f.items.map Item.form = [form ⟨d.production, d.dot + 1⟩ i k] := by
  obtain ⟨hplace, hdone, hnext, hitems⟩ := items_of_completeWith hx hy h
  exact ⟨hplace, hdone, hnext, by rw [hitems]; rfl⟩

/-! ### Nothing else is concluded -/

namespace Recognized

variable {d d' : Dotted} {i j k : ℕ}

/-- The dot moves over the next token. -/
lemma scan {a : String} (h : Recognized g tokens d i j) (hnext : d.next? = some (.terminal a))
    (htoken : tokens[j]? = some a) :
    Recognized g tokens ⟨d.production, d.dot + 1⟩ i (j + 1) := by
  have hj : j < tokens.length := (List.getElem?_eq_some_iff.1 htoken).1
  refine ⟨h.production_mem, dot_lt_of_next? hnext, by have := h.le; omega, hj, ?_, h.predicted⟩
  rw [take_succ_of_next? hnext, ← span_append h.le (Nat.le_succ j), span_succ htoken, word_append]
  exact h.derives.append_right [.terminal a]

/-- A production of the nonterminal behind the dot may begin where the dot stands. -/
lemma predict {p : Production} (h : Recognized g tokens d i j) (hp : p ∈ g.productions)
    (hnext : d.next? = some (.nonterminal p.lhs)) :
    Recognized g tokens (.ofProduction p) j j := by
  refine ⟨hp, Nat.zero_le _, le_rfl, h.le_length, ?_, ?_⟩
  · rw [span_self]
    exact .refl []
  · -- what stands before the dot derives the tokens between the two places
    obtain ⟨right, hright⟩ := h.predicted
    obtain ⟨hlt, hget⟩ := List.getElem?_eq_some_iff.1 hnext
    have hrhs : d.production.rhs = d.production.rhs.take d.dot ++
        .nonterminal p.lhs :: d.production.rhs.drop (d.dot + 1) := by
      rw [← hget, List.cons_getElem_drop_succ, List.take_append_drop]
    have hreplace := Derives.replace (word (span tokens 0 i)) right
      (Replaces.of_mem h.production_mem)
    rw [hrhs] at hreplace
    have hbefore := (h.derives.append_left (word (span tokens 0 i))).append_right
      (.nonterminal p.lhs :: d.production.rhs.drop (d.dot + 1) ++ right)
    refine ⟨d.production.rhs.drop (d.dot + 1) ++ right, hright.trans (hreplace.trans ?_)⟩
    rw [← word_append, span_append (Nat.zero_le i) h.le] at hbefore
    simpa [Dotted.ofProduction] using hbefore

/-- The dot moves over a nonterminal that has been found. -/
lemma complete (h : Recognized g tokens d i j) (h' : Recognized g tokens d' j k)
    (hdone : d'.isActive = false) (hnext : d.next? = some (.nonterminal d'.production.lhs)) :
    Recognized g tokens ⟨d.production, d.dot + 1⟩ i k := by
  have hall : d'.production.rhs.take d'.dot = d'.production.rhs := by
    simp only [Dotted.isActive, decide_eq_false_iff_not, not_lt] at hdone
    exact List.take_of_length_le hdone
  have hfound : g.Derives [.nonterminal d'.production.lhs] (word (span tokens j k)) := by
    have hderives := h'.derives
    rw [hall] at hderives
    exact derives_of_production h'.production_mem hderives
  refine ⟨h.production_mem, dot_lt_of_next? hnext, h.le.trans h'.le, h'.le_length, ?_,
    h.predicted⟩
  rw [take_succ_of_next? hnext, ← span_append h.le h'.le, word_append]
  exact h.derives.append hfound

end Recognized

/-- All items of a closed set of true items. -/
def trueForms (g : Grammar) (tokens : List String) : Set Form :=
  {f | ∃ d i j, f = form d i j ∧ Recognized g tokens d i j}

lemma mem_trueForms_of_forms {items : List (Item W)} {d : Dotted} {i j : ℕ}
    (hforms : items.map Item.form = [form d i j]) (h : Recognized g tokens d i j) :
    ∀ y ∈ items, y.form ∈ trueForms g tokens := by
  intro y hy
  have hmem : y.form ∈ items.map Item.form := List.mem_map_of_mem hy
  rw [hforms, List.mem_singleton] at hmem
  exact ⟨d, i, j, hmem, h⟩

variable {schema : Schema W}

/-- The rules of Earley parsing. -/
lemma mem_rules (hschema : Schema.earley g tokens = .ok schema) {rule : Rule W} :
    rule ∈ schema.rules ↔ rule = .earley (.scan tokens) ∨ rule = .earley .complete ∨
      ∃ p ∈ g.productions, rule = .earley (.predict p) := by
  obtain rfl := Except.ok.inj hschema
  simp [Schema.make, eq_comm]

lemma mem_axioms (hschema : Schema.earley g tokens = .ok schema) {a : Axiom W} :
    a ∈ schema.axioms ↔ ∃ p ∈ g.productions, p.lhs = g.start ∧
      a = ⟨"axiom", [EarleyRule.item (.ofProduction p) 0 0 [Tree.ofProduction p]]⟩ := by
  obtain rfl := Except.ok.inj hschema
  simp only [Schema.make, Schema.fact, productionsOf, List.mem_map, List.mem_filter, beq_iff_eq]
  constructor
  · rintro ⟨p, ⟨hp, hstart⟩, rfl⟩
    exact ⟨p, hp, hstart, rfl⟩
  · rintro ⟨p, hp, hstart, rfl⟩
    exact ⟨p, ⟨hp, hstart⟩, rfl⟩

lemma isUnweighted_and_isUnambiguous (hschema : Schema.earley g tokens = .ok schema) :
    ∀ rule ∈ schema.rules, rule.IsUnweighted ∧ rule.IsUnambiguous := by
  intro rule hrule
  rcases (mem_rules hschema).1 hrule with rfl | rfl | ⟨p, -, rfl⟩ <;> exact ⟨trivial, trivial⟩

variable [Weight W]

/-- True items lead to true items only. -/
lemma isClosed_trueForms (hschema : Schema.earley g tokens = .ok schema) :
    schema.IsClosed (trueForms g tokens) := by
  refine ⟨fun a ha x hx => ?_, fun rule hrule xs f hxs _ hf => ?_⟩
  · obtain ⟨p, hp, hstart, rfl⟩ := (mem_axioms hschema).1 ha
    obtain rfl := List.mem_singleton.1 hx
    refine ⟨.ofProduction p, 0, 0, rfl, hp, Nat.zero_le _, le_rfl, Nat.zero_le _, .refl [], [], ?_⟩
    rw [span_self]
    exact hstart ▸ .refl _
  · obtain ⟨hlen, hf⟩ := Rule.fire?_eq_some.1 hf
    rcases (mem_rules hschema).1 hrule with rfl | rfl | ⟨p, hp, rfl⟩
    · obtain ⟨x, rfl⟩ := List.length_eq_one_iff.1 hlen
      obtain ⟨d, i, j, hx, hd⟩ := hxs x List.mem_cons_self
      obtain ⟨a, hnext, htoken, hforms⟩ := scan_eq_some hx hf
      exact mem_trueForms_of_forms hforms (hd.scan hnext htoken)
    · obtain ⟨x, y, rfl⟩ := List.length_eq_two.1 hlen
      obtain ⟨d, i, j, hx, hd⟩ := hxs x (by simp)
      obtain ⟨d', j', k, hy, hd'⟩ := hxs y (by simp)
      rcases Firing.eq_some_of_eitherOrder? hf with hf | hf
      · obtain ⟨rfl, hdone, hnext, hforms⟩ := completeWith_eq_some hx hy hf
        exact mem_trueForms_of_forms hforms (hd.complete hd' hdone hnext)
      · obtain ⟨rfl, hdone, hnext, hforms⟩ := completeWith_eq_some hy hx hf
        exact mem_trueForms_of_forms hforms (hd'.complete hd hdone hnext)
    · obtain ⟨x, rfl⟩ := List.length_eq_one_iff.1 hlen
      obtain ⟨d, i, j, hx, hd⟩ := hxs x List.mem_cons_self
      obtain ⟨hnext, hforms⟩ := predict_eq_some hx hf
      exact mem_trueForms_of_forms hforms (hd.predict hp hnext)

/-! ### Everything else is concluded -/

section Closed

variable {F : Set Form} {d : Dotted} {i j k : ℕ}

/-- The dot moves over the next token. -/
lemma mem_scan (hschema : Schema.earley g tokens = .ok schema) (hF : schema.IsClosed F)
    {a : String} (h : form d i j ∈ F) (hnext : d.next? = some (.terminal a))
    (htoken : tokens[j]? = some a) : form ⟨d.production, d.dot + 1⟩ i (j + 1) ∈ F := by
  have hadvance : d.advance? = some ⟨d.production, d.dot + 1⟩ :=
    advance?_eq_some.2 ⟨dot_lt_of_next? hnext, rfl⟩
  have hfire : (Rule.earley (W := W) (.scan tokens)).fire? [.ofForm (form d i j)] =
      some ⟨"scan " ++ a, [EarleyRule.item ⟨d.production, d.dot + 1⟩ i (j + 1) []]⟩ := by
    simp [Rule.fire?, Rule.arity, EarleyRule.arity, Rule.fire, EarleyRule.fire, Item.ofForm, form,
      Item.dotted?, Item.index?, Item.field?, hadvance, hnext, htoken, Firing.one]
  exact hF.mem_of_fire ((mem_rules hschema).2 (Or.inl rfl)) [form d i j] (by simpa using h)
    (List.nodup_singleton _) hfire (List.mem_singleton_self _)

/-- A production begins where the dot stands before its left-hand side. -/
lemma mem_predict (hschema : Schema.earley g tokens = .ok schema) (hF : schema.IsClosed F)
    {p : Production} (hp : p ∈ g.productions) (h : form d i j ∈ F)
    (hnext : d.next? = some (.nonterminal p.lhs)) : form (.ofProduction p) j j ∈ F := by
  have hfire : (Rule.earley (W := W) (.predict p)).fire? [.ofForm (form d i j)] =
      some ⟨EarleyRule.name (.predict p),
        [EarleyRule.item (.ofProduction p) j j [Tree.ofProduction p]]⟩ := by
    simp [Rule.fire?, Rule.arity, EarleyRule.arity, Rule.fire, EarleyRule.fire, Item.ofForm, form,
      Item.dotted?, Item.index?, Item.field?, hnext, Firing.one]
  exact hF.mem_of_fire ((mem_rules hschema).2 (Or.inr (Or.inr ⟨p, hp, rfl⟩))) [form d i j]
    (by simpa using h) (List.nodup_singleton _) hfire (List.mem_singleton_self _)

/-- The dot moves over a nonterminal that has been found. -/
lemma mem_complete (hschema : Schema.earley g tokens = .ok schema) (hF : schema.IsClosed F)
    {p : Production} (h : form d i j ∈ F) (h' : form (.complete p) j k ∈ F)
    (hnext : d.next? = some (.nonterminal p.lhs)) :
    form ⟨d.production, d.dot + 1⟩ i k ∈ F := by
  have hadvance : d.advance? = some ⟨d.production, d.dot + 1⟩ :=
    advance?_eq_some.2 ⟨dot_lt_of_next? hnext, rfl⟩
  have hdone : (Dotted.complete p).isActive = false := by
    simp [Dotted.complete, Dotted.isActive]
  have hproduction : (Dotted.complete p).production = p := rfl
  have hjoin : EarleyRule.completeWith (.ofForm (form d i j))
      (.ofForm (form (.complete p) j k)) =
        some (⟨"complete", [EarleyRule.item ⟨d.production, d.dot + 1⟩ i k []]⟩ : Firing W) := by
    simp [EarleyRule.completeWith, Item.ofForm, form, Item.dotted?, Item.index?, Item.field?,
      hdone, hnext, hproduction, hadvance, Firing.one, EarleyRule.name, Choice.distinct,
      Choice.distinctBy]
  have hfire : (Rule.earley (W := W) .complete).fire?
      [.ofForm (form d i j), .ofForm (form (.complete p) j k)] =
        some ⟨"complete", [EarleyRule.item ⟨d.production, d.dot + 1⟩ i k []]⟩ := by
    simp [Rule.fire?, Rule.arity, EarleyRule.arity, Rule.fire, EarleyRule.fire,
      Firing.eitherOrder?, hjoin]
  -- one production has a symbol behind its dot and the other has none
  have hne : form d i j ≠ form (.complete p) j k := by
    intro heq
    have hd : d = .complete p := by simpa [form] using (List.cons.inj heq).1
    have hlt := dot_lt_of_next? hnext
    rw [hd] at hlt
    exact lt_irrefl _ hlt
  exact hF.mem_of_fire ((mem_rules hschema).2 (Or.inr (Or.inl rfl)))
    [form d i j, form (.complete p) j k] (by simp [h, h']) (by simpa using hne) hfire
    (List.mem_singleton_self _)

/-- The dot moves over symbols that derive the next tokens. -/
lemma mem_advance (hschema : Schema.earley g tokens = .ok schema) (hF : schema.IsClosed F)
    {symbols derived : List Symbol} (h : Unfolds g.Replaces symbols derived)
    {u v rest : List String} (hv : derived = word v) (htokens : tokens = u ++ v ++ rest)
    {behind : List Symbol} (hd : d.production.rhs.drop d.dot = symbols ++ behind)
    (hmem : form d i u.length ∈ F) :
    form ⟨d.production, d.dot + symbols.length⟩ i (u ++ v).length ∈ F := by
  induction h generalizing d i u v rest behind with
  | nil =>
      obtain rfl : v = [] := by simpa [word] using hv.symm
      simpa using hmem
  | @keep x xs ys _ ih =>
      -- only a terminal is kept, and it is the next token
      cases v with
      | nil => simp [word] at hv
      | cons a v =>
          obtain ⟨rfl, rfl⟩ := List.cons.inj hv
          obtain ⟨hnext, hdrop⟩ := next?_of_drop_eq_cons hd
          have htoken : tokens[u.length]? = some a := by simp [htokens]
          have hscan : form ⟨d.production, d.dot + 1⟩ i (u ++ [a]).length ∈ F := by
            simpa using mem_scan hschema hF hmem hnext htoken
          have hrest : tokens = (u ++ [a]) ++ v ++ rest := by simpa using htokens
          have hstep := ih rfl hrest hdrop hscan
          simpa [Nat.add_comm, Nat.add_left_comm] using hstep
  | @expand x rhs us xs ys hx hrhs hxs ihrhs ihxs =>
      -- a production of the nonterminal begins here, and when it is complete the dot moves on
      obtain ⟨p, hp, rfl, rfl⟩ := hx
      obtain ⟨v₁, v₂, rfl, rfl, rfl⟩ := List.map_eq_append_iff.1 hv.symm
      obtain ⟨hnext, hdrop⟩ := next?_of_drop_eq_cons hd
      have hbegin := mem_predict hschema hF hp hmem hnext
      have hall : (Dotted.ofProduction p).production.rhs.drop (Dotted.ofProduction p).dot =
          p.rhs ++ [] := by simp [Dotted.ofProduction]
      have hrest₁ : tokens = u ++ v₁ ++ (v₂ ++ rest) := by simpa using htokens
      have hend : form (.complete p) u.length (u ++ v₁).length ∈ F := by
        simpa [Dotted.ofProduction, Dotted.complete] using ihrhs rfl hrest₁ hall hbegin
      have hfound := mem_complete hschema hF hmem hend hnext
      have hrest₂ : tokens = (u ++ v₁) ++ v₂ ++ rest := by simpa using htokens
      have hstep := ihxs rfl hrest₂ hdrop hfound
      simpa [Nat.add_comm, Nat.add_left_comm] using hstep

/-- The productions of a nonterminal that may begin behind a part of the input begin there. -/
lemma mem_of_predicts (hschema : Schema.earley g tokens = .ok schema) (hF : schema.IsClosed F)
    {u : List String} {a : String} (h : g.Predicts u a) {rest : List String}
    (htokens : tokens = u ++ rest) {p : Production} (hp : p ∈ g.productions) (ha : p.lhs = a) :
    form (.ofProduction p) u.length u.length ∈ F := by
  induction h generalizing rest p with
  | start =>
      exact hF.axioms_mem _ ((mem_axioms hschema).2 ⟨p, hp, ha, rfl⟩) _ (List.mem_singleton_self _)
  | @step u v q before after b hq hrhs _ hv ih =>
      have hrest : tokens = u ++ (v ++ rest) := by simpa using htokens
      have hbegin := ih hrest hq rfl
      have hall : (Dotted.ofProduction q).production.rhs.drop (Dotted.ofProduction q).dot =
          before ++ .nonterminal b :: after := by simp [Dotted.ofProduction, hrhs]
      have hadvance := mem_advance hschema hF (unfolds_iff_derives.2 hv) rfl htokens hall hbegin
      refine mem_predict hschema hF hp hadvance ?_
      simp [Dotted.next?, Dotted.ofProduction, hrhs, ha]

/-- A closed set contains all true items. -/
lemma mem_of_recognized (hschema : Schema.earley g tokens = .ok schema) (hF : schema.IsClosed F)
    (h : Recognized g tokens d i j) : form d i j ∈ F := by
  obtain ⟨p, dot⟩ := d
  have hi : (span tokens 0 i).length = i := length_span (h.le.trans h.le_length)
  have htokens := eq_append_span tokens h.le
  have hj : (span tokens 0 i ++ span tokens i j).length = j := by
    rw [span_append (Nat.zero_le i) h.le]
    exact length_span h.le_length
  have hpredicts := predicts_iff.2 h.predicted
  have hbegin := mem_of_predicts hschema hF hpredicts (htokens.trans (List.append_assoc _ _ _))
    h.production_mem rfl
  have hall : (Dotted.ofProduction p).production.rhs.drop (Dotted.ofProduction p).dot =
      p.rhs.take dot ++ p.rhs.drop dot := by simp [Dotted.ofProduction]
  have hadvance := mem_advance hschema hF (unfolds_iff_derives.2 h.derives) rfl htokens hall hbegin
  have hdot : (p.rhs.take dot).length = dot := by
    rw [List.length_take]
    exact Nat.min_eq_left h.dot_le
  rw [hi, hj, hdot] at hadvance
  simpa [Dotted.ofProduction] using hadvance

end Closed

/-! ### Runs -/

variable {settings : Settings}

/-- An input is generated if a production of the start symbol is recognized from one end to the
other. -/
lemma generates_iff :
    g.Generates tokens ↔ ∃ p ∈ g.productions, p.lhs = g.start ∧
      Recognized g tokens (.complete p) 0 tokens.length := by
  constructor
  · intro h
    obtain ⟨p, hp, hstart, hderives⟩ := exists_of_nonterminal_derives h
    refine ⟨p, hp, hstart, hp, le_rfl, Nat.zero_le _, le_rfl, ?_, [], ?_⟩
    · rw [span_length]
      simpa [Dotted.complete] using hderives
    · rw [span_self]
      exact hstart ▸ .refl _
  · rintro ⟨p, hp, hstart, h⟩
    have hderives : g.Derives p.rhs (word tokens) := by
      have hall := h.derives
      rw [span_length] at hall
      simpa [Dotted.complete] using hall
    rw [Generates, ← hstart]
    exact derives_of_production hp hderives

omit [Weight W] in
/-- The goals of Earley parsing. -/
lemma exists_goal_iff {schema : Schema W} (hschema : Schema.earley g tokens = .ok schema)
    {f : Form} :
    (∃ y ∈ schema.goals, y.form = f) ↔ ∃ p ∈ g.productions, p.lhs = g.start ∧
      f = form (.complete p) 0 tokens.length := by
  obtain rfl := Except.ok.inj hschema
  refine (Schema.exists_goal_make (F := {f})).trans ⟨?_, ?_⟩
  · rintro ⟨y, hy, hform⟩
    obtain ⟨p, hp, rfl⟩ := List.mem_map.1 hy
    obtain ⟨hp, hstart⟩ := List.mem_filter.1 hp
    exact ⟨p, hp, beq_iff_eq.1 hstart, (Set.mem_singleton_iff.1 hform).symm⟩
  · rintro ⟨p, hp, hstart, rfl⟩
    exact ⟨_, List.mem_map_of_mem (List.mem_filter.2 ⟨hp, beq_iff_eq.2 hstart⟩), rfl⟩

/-- When a run has ended in which something is derivable, the start symbol derives the input. -/
lemma generates_of_isDerivable {schema : Schema W} (hschema : Schema.earley g tokens = .ok schema)
    {fuel : ℕ} {o : Outcome W} (h : Deduction.run settings schema fuel = .ok o)
    (ho : o.isDerivable = true) : g.Generates tokens := by
  obtain ⟨hleast, hderivable⟩ :=
    Deduction.isLeast_and_isDerivable_iff_of_run (isUnweighted_and_isUnambiguous hschema) h
  obtain ⟨x, hx, hmem⟩ := hderivable.1 ho
  obtain ⟨p, hp, hstart, hform⟩ := (exists_goal_iff hschema).1 ⟨x, hx, rfl⟩
  obtain ⟨d, i, j, heq, hrecognized⟩ := hleast.2 (isClosed_trueForms hschema) (hform ▸ hmem)
  obtain ⟨rfl, rfl, rfl⟩ : Dotted.complete p = d ∧ 0 = i ∧ tokens.length = j := by
    simpa [form] using heq
  exact generates_iff.2 ⟨p, hp, hstart, hrecognized⟩

/-- When a run has ended, something is derivable exactly if the start symbol derives the input. -/
lemma isDerivable_iff_generates {schema : Schema W} (hschema : Schema.earley g tokens = .ok schema)
    {fuel : ℕ} {o : Outcome W} (h : Deduction.run settings schema fuel = .ok o) :
    o.isDerivable = true ↔ g.Generates tokens := by
  refine ⟨generates_of_isDerivable hschema h, fun hgenerates => ?_⟩
  obtain ⟨hleast, hderivable⟩ :=
    Deduction.isLeast_and_isDerivable_iff_of_run (isUnweighted_and_isUnambiguous hschema) h
  obtain ⟨p, hp, hstart, hrecognized⟩ := generates_iff.1 hgenerates
  obtain ⟨x, hx, hform⟩ := (exists_goal_iff hschema).2 ⟨p, hp, hstart, rfl⟩
  exact hderivable.2 ⟨x, hx, hform ▸ mem_of_recognized hschema hleast.1 hrecognized⟩

/-- When a run of Earley parsing has ended, the chart holds an item exactly if the symbols before
its dot derive the tokens between its two places and its left-hand side may begin at the first. So
something is derivable exactly if the start symbol derives the input. -/
theorem earley_chart_exact {schema : Schema W} (hschema : Schema.earley g tokens = .ok schema)
    {fuel : ℕ} {o : Outcome W} (h : Deduction.run settings schema fuel = .ok o) :
    (∀ d i j, form d i j ∈ o.chart.forms ↔ Recognized g tokens d i j) ∧
      (o.isDerivable = true ↔ g.Generates tokens) := by
  obtain ⟨hleast, hderivable⟩ :=
    Deduction.isLeast_and_isDerivable_iff_of_run (isUnweighted_and_isUnambiguous hschema) h
  have hexact : ∀ d i j, form d i j ∈ o.chart.forms ↔ Recognized g tokens d i j := by
    intro d i j
    refine ⟨fun hmem => ?_, mem_of_recognized hschema hleast.1⟩
    obtain ⟨d', i', j', heq, hrecognized⟩ := hleast.2 (isClosed_trueForms hschema) hmem
    obtain ⟨rfl, rfl, rfl⟩ : d = d' ∧ i = i' ∧ j = j' := by simpa [form] using heq
    exact hrecognized
  refine ⟨hexact, ?_⟩
  rw [hderivable, generates_iff]
  obtain rfl := Except.ok.inj hschema
  rw [Schema.exists_goal_make]
  constructor
  · rintro ⟨x, hx, hform⟩
    obtain ⟨p, hp, rfl⟩ := List.mem_map.1 hx
    obtain ⟨hmem, hstart⟩ := List.mem_filter.1 hp
    exact ⟨p, hmem, beq_iff_eq.1 hstart, (hexact _ _ _).1 hform⟩
  · rintro ⟨p, hp, hstart, hrecognized⟩
    exact ⟨_, List.mem_map_of_mem (List.mem_filter.2 ⟨hp, beq_iff_eq.2 hstart⟩),
      (hexact _ _ _).2 hrecognized⟩

/-- A grammar of a letter and what may follow it: the start symbol stands first on its own right-hand
side, before a symbol that may be empty. -/
def suffixGrammar : Grammar :=
  ⟨["S", "A"], ["a", "b"], "S", [⟨"S", [.nonterminal "S", .nonterminal "A"]⟩,
    ⟨"S", [.terminal "a"]⟩, ⟨"A", [.terminal "b"]⟩, ⟨"A", []⟩]⟩

/-- The run on two letters ends with exactly the items that say something true. -/
theorem exists_earley_chart_exact_suffix :
    ∃ (schema : Schema Float) (o : Outcome Float),
      Schema.earley suffixGrammar ["a", "b"] = .ok schema ∧
      Deduction.run ⟨.accumulate, none⟩ schema 20 = .ok o ∧
      (∀ d i j, form d i j ∈ o.chart.forms ↔ Recognized suffixGrammar ["a", "b"] d i j) ∧
        o.isDerivable = true ∧ suffixGrammar.Generates ["a", "b"] := by
  obtain ⟨schema, hschema⟩ : ∃ schema : Schema Float,
      Schema.earley suffixGrammar ["a", "b"] = .ok schema := ⟨_, rfl⟩
  have hrun : (Deduction.run ⟨.accumulate, none⟩ schema 20).map Outcome.isDerivable =
      .ok true := by
    obtain rfl := Except.ok.inj hschema
    cbv
  obtain ⟨o, h, hderivable⟩ := Deduction.exists_of_map_eq_ok hrun
  obtain ⟨hexact, hgenerates⟩ := earley_chart_exact hschema h
  exact ⟨schema, o, hschema, h, hexact, hderivable, hgenerates.1 hderivable⟩

end DeductiveParsing.Earley
