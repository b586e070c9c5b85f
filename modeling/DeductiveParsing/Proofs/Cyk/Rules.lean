/-
What the rules of parsing by spans conclude.

* `Cyk.spanForms`: the forms of spans with a property;
* `Cyk.Chained`: spans that follow one another and carry the names of symbols;
* `Cyk.Picked`: a tree for each symbol, which for a nonterminal is one of the trees of its span;
* `Cyk.mem_fill_ofProduction_iff`: the trees that spans fill into the tree of a production;
* `Cyk.Concludes`, `Cyk.concludes_of_fire`: what each of the rules concludes;
* `Cyk.Concludes.exists_chained`: its span covers a row of spans for the right-hand side.
-/
import DeductiveParsing.Proofs.ContextFree.Filling
import DeductiveParsing.Proofs.Inference.Orders
import DeductiveParsing.Schema.ContextFree

namespace DeductiveParsing.Cyk

open ContextFree Grammar

variable {W : Type} {g : Grammar} {tokens : List String} {p : Production} {x y : Item W}
  {xs spans : List (Item W)} {symbols : List Symbol} {cs : List Tree} {t : Tree} {name : String}
  {i l place stop : ℕ}

/-- The form of an item. -/
def form (name : String) (i l : ℕ) : Form := [.symbol name, .index i, .index l]

lemma form_injective {name' : String} {i' l' : ℕ} (h : form name i l = form name' i' l') :
    name = name' ∧ i = i' ∧ l = l' := by
  simpa [form] using h

/-- The fields of an item whose form is that of a span. -/
lemma fields_of_form (h : x.form = form name i l) :
    x.symbol? 0 = some name ∧ x.index? 1 = some i ∧ x.index? 2 = some l := by
  simp [Item.symbol?, Item.index?, Item.field?, h, form]

/-- Whether an item is a span. -/
def IsSpan (x : Item W) : Prop := ∃ name i l, x.form = form name i l

/-- The forms of the spans with a property. -/
def spanForms (P : String → ℕ → ℕ → Prop) : Set Form :=
  {f | ∃ name i l, f = form name i l ∧ P name i l}

section SpanForms

variable {P : String → ℕ → ℕ → Prop}

lemma form_mem_spanForms : form name i l ∈ spanForms P ↔ P name i l := by
  refine ⟨?_, fun h => ⟨name, i, l, rfl, h⟩⟩
  rintro ⟨name', i', l', heq, h⟩
  obtain ⟨rfl, rfl, rfl⟩ := form_injective heq
  exact h

lemma isSpan_of_mem_spanForms (hxs : ∀ x ∈ xs, x.form ∈ spanForms P) : ∀ x ∈ xs, IsSpan x := by
  intro x hx
  obtain ⟨name, i, l, hform, -⟩ := hxs x hx
  exact ⟨name, i, l, hform⟩

end SpanForms

/-! ### Spans in a row -/

/-- Spans that follow one another from one place to another and carry the names of symbols. -/
inductive Chained : ℕ → List (Item W) → List Symbol → ℕ → Prop
  | nil (place : ℕ) : Chained place [] [] place
  | cons {place l stop : ℕ} {x : Item W} {s : Symbol} {xs : List (Item W)} {symbols : List Symbol}
      (hx : x.form = form s.name place l) (h : Chained (place + l) xs symbols stop) :
      Chained place (x :: xs) (s :: symbols) stop

lemma chainEnd?_cons {s : Symbol} (hx : x.form = form name i l) :
    CykRule.chainEnd? place (x :: xs) (s :: symbols) = some stop ↔
      name = s.name ∧ i = place ∧ CykRule.chainEnd? (place + l) xs symbols = some stop := by
  obtain ⟨hname, hi, hl⟩ := fields_of_form hx
  simp [CykRule.chainEnd?, hname, hi, hl, and_assoc]

lemma chainEnd?_eq_some_iff (hspans : ∀ x ∈ spans, IsSpan x)
    (hlen : spans.length = symbols.length) :
    CykRule.chainEnd? place spans symbols = some stop ↔ Chained place spans symbols stop := by
  induction spans generalizing place symbols with
  | nil =>
      obtain rfl : symbols = [] := List.length_eq_zero_iff.1 hlen.symm
      rw [CykRule.chainEnd?, Option.some.injEq]
      refine ⟨fun h => h ▸ .nil place, fun h => ?_⟩
      cases h
      rfl
  | cons x spans ih =>
      cases symbols with
      | nil => simp at hlen
      | cons s symbols =>
          obtain ⟨name, i, l, hx⟩ := hspans x List.mem_cons_self
          rw [chainEnd?_cons hx, ih (fun y hy => hspans y (List.mem_cons_of_mem _ hy))
            (by simpa using hlen)]
          constructor
          · rintro ⟨rfl, rfl, h⟩
            exact .cons hx h
          · rintro h
            cases h with
            | cons hx' h =>
                obtain ⟨rfl, rfl, rfl⟩ := form_injective (hx.symm.trans hx')
                exact ⟨rfl, rfl, h⟩

namespace Chained

lemma le (h : Chained place spans symbols stop) : place ≤ stop := by
  induction h with
  | nil => exact le_rfl
  | cons _ _ ih => omega

lemma length_eq (h : Chained place spans symbols stop) : spans.length = symbols.length := by
  induction h with
  | nil => rfl
  | cons _ _ ih => simp [ih]

lemma form_of_singleton {s : Symbol} (h : Chained place [x] [s] stop) :
    x.form = form s.name place (stop - place) := by
  cases h with
  | cons hx h =>
      cases h
      rw [hx, Nat.add_sub_cancel_left]

lemma isSpan (h : Chained place spans symbols stop) : ∀ x ∈ spans, IsSpan x := by
  induction h with
  | nil => simp
  | cons hx _ ih => exact List.forall_mem_cons.2 ⟨⟨_, _, _, hx⟩, ih⟩

lemma chainEnd?_eq (h : Chained place spans symbols stop) :
    CykRule.chainEnd? place spans symbols = some stop :=
  (chainEnd?_eq_some_iff h.isSpan h.length_eq).2 h

/-- Spans within an input end within it. -/
lemma stop_le {n : ℕ} (h : Chained place spans symbols stop) (hsymbols : symbols ≠ [])
    (hroom : ∀ x ∈ spans, ∀ name i l, x.form = form name i l → i + l ≤ n) : stop ≤ n := by
  induction h with
  | nil => exact absurd rfl hsymbols
  | @cons place l stop x s xs symbols hx h ih =>
      cases h with
      | nil => exact hroom x List.mem_cons_self _ _ _ hx
      | cons => exact ih (List.cons_ne_nil _ _) fun y hy => hroom y (List.mem_cons_of_mem _ hy)

end Chained

/-! ### Trees in a row -/

/-- A tree for each symbol: a leaf for a terminal, and one of the trees of its span for a
nonterminal. -/
inductive Picked : List (Item W) → List Symbol → List Tree → Prop
  | nil : Picked [] [] []
  | leaf (x : Item W) (a : String) {xs : List (Item W)} {symbols : List Symbol} {cs : List Tree}
      (h : Picked xs symbols cs) : Picked (x :: xs) (.terminal a :: symbols) (.leaf a :: cs)
  | tree {x : Item W} {u : Tree} (a : String) {xs : List (Item W)} {symbols : List Symbol}
      {cs : List Tree} (hu : u ∈ x.trees) (h : Picked xs symbols cs) :
      Picked (x :: xs) (.nonterminal a :: symbols) (u :: cs)

lemma Picked.mem (h : Picked spans symbols cs) :
    ∀ c ∈ cs, c.children = [] ∨ ∃ x ∈ spans, c ∈ x.trees := by
  induction h with
  | nil => simp
  | leaf x a _ ih =>
      refine List.forall_mem_cons.2 ⟨Or.inl rfl, fun c hc => (ih c hc).imp_right ?_⟩
      exact fun ⟨y, hy, hmem⟩ => ⟨y, List.mem_cons_of_mem _ hy, hmem⟩
  | @tree x u a _ _ _ hu _ ih =>
      refine List.forall_mem_cons.2 ⟨Or.inr ⟨x, List.mem_cons_self, hu⟩,
        fun c hc => (ih c hc).imp_right ?_⟩
      exact fun ⟨y, hy, hmem⟩ => ⟨y, List.mem_cons_of_mem _ hy, hmem⟩

/-- Whether all trees of an item are trees for its name, whatever they spell. -/
def CarriesTrees (g : Grammar) (x : Item W) : Prop :=
  ∀ name i l, x.form = form name i l → ∀ t ∈ x.trees, ∃ w, g.Spells [.nonterminal name] [t] w

/-- A tree for a nonterminal has its name as the label, and no open leaf for a declared one. -/
lemma label_and_not_mem_frontier (hg : g.IsWellFormed) {w : List String}
    (h : g.Spells [.nonterminal name] [t] w) :
    t.label = name ∧ ∀ b ∈ g.nonterminals, some b ∉ t.frontier := by
  obtain ⟨p, hp, hlhs, cs, rfl, hcs⟩ := h.exists_of_nonterminal
  refine ⟨rfl, fun b hb => ?_⟩
  rw [Tree.frontier_above, List.mem_flatMap]
  rintro ⟨c, hc, hmem⟩
  exact hcs.not_mem_frontier hg (hg.declares hp) hb c hc hmem

/-- The symbols with the trees of their spans. -/
def slots (spans : List (Item W)) (symbols : List Symbol) : List Slot :=
  (spans.zip symbols).map fun (x, s) => (s, x.trees)

lemma forests_slots (spans : List (Item W)) (symbols : List Symbol) :
    Slot.forests (slots spans symbols) = CykRule.nonterminalForests spans symbols := by
  rw [Slot.forests, slots, List.filter_map, List.map_map]
  rfl

lemma forall₂_takes_slots_iff (hlen : spans.length = symbols.length) :
    List.Forall₂ Slot.Takes (slots spans symbols) cs ↔ Picked spans symbols cs := by
  constructor
  · intro h
    induction spans generalizing symbols cs with
    | nil =>
        obtain rfl : symbols = [] := List.length_eq_zero_iff.1 hlen.symm
        cases h
        exact .nil
    | cons x spans ih =>
        cases symbols with
        | nil => simp at hlen
        | cons s symbols =>
            cases h with
            | @cons _ c _ cs hc h =>
                have hrest := ih (by simpa using hlen) h
                cases s with
                | terminal a =>
                    obtain rfl : c = .leaf a := hc
                    exact .leaf x a hrest
                | nonterminal a => exact .tree a hc hrest
  · intro h
    clear hlen
    induction h with
    | nil => exact .nil
    | leaf x a _ ih => exact .cons rfl ih
    | tree a hu _ ih => exact .cons hu ih

/-- The trees of spans may take the places of the leaves of their symbols. -/
lemma Chained.areFillers (hg : g.IsWellFormed) (h : Chained place spans symbols stop)
    (htrees : ∀ x ∈ spans, CarriesTrees g x) : g.AreFillers (slots spans symbols) := by
  induction h with
  | nil => exact nofun
  | cons hx _ ih =>
      obtain ⟨htree, htrees⟩ := List.forall_mem_cons.1 htrees
      refine List.forall_mem_cons.2 ⟨fun _ => ?_, ih htrees⟩
      have hspells := fun t ht => (htree _ _ _ hx t ht).elim
        fun _ => label_and_not_mem_frontier hg
      exact ⟨fun t ht => (hspells t ht).2, fun t ht => (hspells t ht).1⟩

/-- The trees that spans fill into the tree of a production. -/
lemma mem_fill_ofProduction_iff (hg : g.IsWellFormed) (hp : p ∈ g.productions)
    (h : Chained place spans p.rhs stop) (htrees : ∀ x ∈ spans, CarriesTrees g x) :
    t ∈ Forest.fill (Tree.ofProduction p) (CykRule.nonterminalForests spans p.rhs) ↔
      ∃ cs, Picked spans p.rhs cs ∧ t = .above p.lhs cs := by
  have hrhs : (slots spans p.rhs).map Prod.fst = p.rhs := by
    rw [slots, List.map_map]
    exact List.map_snd_zip h.length_eq.ge
  rw [← forests_slots, mem_fill_slots_iff hg hp hrhs (h.areFillers hg htrees)]
  exact exists_congr fun cs => and_congr_left' (forall₂_takes_slots_iff h.length_eq)

/-! ### What rules conclude -/

/-- Whether a production has the shape that its rule is made for. -/
def Suits : CykRule → Prop
  | .binary p => p.isBinary = true
  | .unary p => p.isUnary = true
  | .general _ => True

/-- What a rule concludes: the left-hand side over spans that follow one another, given in any
order, or over an empty string. -/
inductive Concludes (p : Production) (xs : List (Item W)) : Item W → Prop
  | spans {order : List (Item W)} {start stop : ℕ} (hp : p.rhs ≠ []) (hperm : order.Perm xs)
      (h : Chained start order p.rhs stop) :
      Concludes p xs (CykRule.item p.lhs start (stop - start)
        (Forest.fill (Tree.ofProduction p) (CykRule.nonterminalForests order p.rhs)))
  | empty {x : Item W} {i : ℕ} (hp : p.rhs = []) (hxs : xs = [x]) (hx : x.form = form epsilon i 0) :
      Concludes p xs (CykRule.item p.lhs i 0 [Tree.ofProduction p])

lemma joinAll_eq_some (hspans : ∀ x ∈ spans, IsSpan x) (hlen : spans.length = p.rhs.length)
    (h : CykRule.joinAll p spans = some y) : ∃ start stop, Chained start spans p.rhs stop ∧
      y = CykRule.item p.lhs start (stop - start)
        (Forest.fill (Tree.ofProduction p) (CykRule.nonterminalForests spans p.rhs)) := by
  simp only [CykRule.joinAll, Option.bind_eq_bind, Option.bind_eq_some_iff] at h
  obtain ⟨-, -, start, -, stop, hstop, heq⟩ := h
  exact ⟨start, stop, (chainEnd?_eq_some_iff hspans hlen).1 hstop, (Option.some.inj heq).symm⟩

lemma rhs_of_isBinary (h : p.isBinary = true) :
    ∃ b c, p.rhs = [.nonterminal b, .nonterminal c] := by
  obtain ⟨lhs, rhs⟩ := p
  match rhs with
  | [.nonterminal b, .nonterminal c] => exact ⟨b, c, rfl⟩
  | [.terminal _, _] | [.nonterminal _, .terminal _] =>
      simp [Production.isBinary, Symbol.isNonterminal] at h
  | [] | [_] | _ :: _ :: _ :: _ => simp [Production.isBinary] at h

lemma rhs_of_isUnary (h : p.isUnary = true) : ∃ b, p.rhs = [.nonterminal b] := by
  obtain ⟨lhs, rhs⟩ := p
  match rhs with
  | [.nonterminal b] => exact ⟨b, rfl⟩
  | [.terminal _] => simp [Production.isUnary, Symbol.isNonterminal] at h
  | [] | _ :: _ :: _ => simp [Production.isUnary] at h

lemma rhs_of_isLexical (h : p.isLexical = true) : ∃ a, p.rhs = [.terminal a] := by
  obtain ⟨lhs, rhs⟩ := p
  match rhs with
  | [.terminal a] => exact ⟨a, rfl⟩
  | [.nonterminal _] => simp [Production.isLexical, Symbol.isTerminal] at h
  | [] | _ :: _ :: _ => simp [Production.isLexical] at h

/-- What spans that follow one another are joined to. -/
lemma Chained.joinAll_eq {start : ℕ} (h : Chained start spans p.rhs stop) (hp : p.rhs ≠ []) :
    CykRule.joinAll p spans = some (CykRule.item p.lhs start (stop - start)
      (Forest.fill (Tree.ofProduction p) (CykRule.nonterminalForests spans p.rhs))) := by
  have hend := h.chainEnd?_eq
  obtain ⟨x, rest, rfl, hx⟩ : ∃ x rest, spans = x :: rest ∧ x.index? 1 = some start := by
    cases hrhs : p.rhs with
    | nil => exact absurd hrhs hp
    | cons s symbols =>
        rw [hrhs] at h
        cases h with
        | cons hx _ => exact ⟨_, _, rfl, (fields_of_form hx).2.1⟩
  simp [CykRule.joinAll, hx, hend]

lemma joinTwo_eq_some {f : Firing W} (hp : p.isBinary = true) (hx : IsSpan x) (hy : IsSpan y)
    (h : CykRule.joinTwo p x y = some f) : ∃ start stop, Chained start [x, y] p.rhs stop ∧
      f.items = [CykRule.item p.lhs start (stop - start)
        (Forest.fill (Tree.ofProduction p) (CykRule.nonterminalForests [x, y] p.rhs))] := by
  obtain ⟨b, i, l, hx⟩ := hx
  obtain ⟨c, j, m, hy⟩ := hy
  obtain ⟨hb, hi, hl⟩ := fields_of_form hx
  obtain ⟨hc, hj, hm⟩ := fields_of_form hy
  simp only [CykRule.joinTwo, hb, hi, hl, hc, hj, hm, Option.bind_eq_bind, Option.bind_some,
    Option.ite_none_right_eq_some] at h
  obtain ⟨⟨rfl, hnames⟩, h⟩ := h
  obtain ⟨b', c', hrhs⟩ := rhs_of_isBinary hp
  obtain ⟨rfl, rfl⟩ : b' = b ∧ c' = c := by
    simpa [Production.rhsNames, hrhs, Symbol.name] using hnames
  refine ⟨i, i + l + m, ?_, ?_⟩
  · rw [hrhs]
    exact .cons hx (.cons hy (.nil _))
  · rw [← Option.some.inj h, hrhs, Nat.add_assoc, Nat.add_sub_cancel_left]
    rfl

lemma fire_unary_eq_some {f : Firing W} (hp : p.isUnary = true) (hx : IsSpan x)
    (h : (CykRule.unary p).fire [x] = some f) : ∃ start stop, Chained start [x] p.rhs stop ∧
      f.items = [CykRule.item p.lhs start (stop - start)
        (Forest.fill (Tree.ofProduction p) (CykRule.nonterminalForests [x] p.rhs))] := by
  obtain ⟨b, i, l, hx⟩ := hx
  obtain ⟨hb, hi, hl⟩ := fields_of_form hx
  simp only [CykRule.fire, hb, hi, hl, Option.bind_eq_bind, Option.bind_some,
    Option.ite_none_right_eq_some] at h
  obtain ⟨hname, h⟩ := h
  obtain ⟨b', hrhs⟩ := rhs_of_isUnary hp
  obtain rfl : b' = b := by simpa [Production.rhsNames, hrhs, Symbol.name] using hname
  refine ⟨i, i + l, ?_, ?_⟩
  · rw [hrhs]
    exact .cons hx (.nil _)
  · rw [← Option.some.inj h, hrhs, Nat.add_sub_cancel_left]
    rfl

lemma concludes_of_placeEmpty (hp : p.rhs = []) (hx : IsSpan x) {f : Firing W}
    (h : CykRule.placeEmpty p x = some f) : ∀ y ∈ f.items, Concludes p [x] y := by
  obtain ⟨name, i, l, hx⟩ := hx
  obtain ⟨hname, hi, hl⟩ := fields_of_form hx
  simp only [CykRule.placeEmpty, hname, hi, hl, Option.bind_eq_bind, Option.bind_some,
    Option.ite_none_right_eq_some] at h
  obtain ⟨⟨rfl, rfl⟩, h⟩ := h
  intro y hy
  rw [← Option.some.inj h, List.mem_singleton] at hy
  exact hy ▸ .empty hp rfl hx

/-- The consequences of spans in any order are those of their orders. -/
lemma exists_of_fire_general (hp : p.rhs ≠ []) {f : Firing W}
    (h : (CykRule.general p).fire xs = some f) :
    ∀ y ∈ f.items, ∃ order : List (Item W), order.Perm xs ∧ CykRule.joinAll p order = some y := by
  have hempty : p.isEmpty = false := by simpa [Production.isEmpty] using hp
  simp only [CykRule.fire, hempty, Bool.false_eq_true, ↓reduceIte, Firing.ofItems,
    Option.ite_none_left_eq_some] at h
  intro y hy
  rw [← Option.some.inj h.2] at hy
  obtain ⟨order, horder, hjoin⟩ := List.mem_filterMap.1 (Choice.mem_of_mem_distinctBy hy)
  exact ⟨order, (Choice.mem_walks_length.1 horder).1, hjoin⟩

/-- What a rule concludes from spans. -/
theorem concludes_of_fire {rule : CykRule} (hrule : Suits rule) (hxs : ∀ x ∈ xs, IsSpan x)
    (hlen : xs.length = rule.arity) {f : Firing W} (h : rule.fire xs = some f) :
    ∀ y ∈ f.items, Concludes rule.production xs y := by
  cases rule with
  | binary p =>
      obtain ⟨x, x', rfl⟩ := List.length_eq_two.1 hlen
      obtain ⟨hx, hx'⟩ : IsSpan x ∧ IsSpan x' := by simpa using hxs
      have hne : p.rhs ≠ [] := by
        obtain ⟨b, c, hrhs⟩ := rhs_of_isBinary hrule
        simp [hrhs]
      intro y hy
      rcases Firing.eq_some_of_eitherOrder? h with h | h
      · obtain ⟨start, stop, hchain, hitems⟩ := joinTwo_eq_some hrule hx hx' h
        rw [hitems, List.mem_singleton] at hy
        exact hy ▸ .spans hne (.refl _) hchain
      · obtain ⟨start, stop, hchain, hitems⟩ := joinTwo_eq_some hrule hx' hx h
        rw [hitems, List.mem_singleton] at hy
        exact hy ▸ .spans hne (.swap _ _ _) hchain
  | unary p =>
      obtain ⟨x, rfl⟩ := List.length_eq_one_iff.1 hlen
      obtain ⟨start, stop, hchain, hitems⟩ :=
        fire_unary_eq_some hrule (hxs x List.mem_cons_self) h
      have hne : p.rhs ≠ [] := by
        obtain ⟨b, hrhs⟩ := rhs_of_isUnary hrule
        simp [hrhs]
      intro y hy
      rw [hitems, List.mem_singleton] at hy
      exact hy ▸ .spans hne (.refl _) hchain
  | general p =>
      by_cases hempty : p.rhs = []
      · rw [CykRule.arity, hempty] at hlen
        obtain ⟨x, rfl⟩ := List.length_eq_one_iff.1 hlen
        exact concludes_of_placeEmpty hempty (hxs x List.mem_cons_self)
          (by simpa [CykRule.fire, Production.isEmpty, hempty] using h)
      · have hpos := List.length_pos_iff.2 hempty
        rw [CykRule.arity, Nat.max_eq_left hpos] at hlen
        intro y hy
        obtain ⟨order, hperm, hjoin⟩ := exists_of_fire_general hempty h y hy
        obtain ⟨start, stop, hchain, rfl⟩ := joinAll_eq_some
          (fun x hx => hxs x (hperm.subset hx)) (hperm.length_eq.trans hlen) hjoin
        exact .spans hempty hperm hchain

/-- A conclusion covers spans that follow one another within the input, the empty string those of no
symbols. -/
lemma Concludes.exists_chained {n : ℕ} (h : Concludes p xs y)
    (hroom : ∀ x ∈ xs, ∀ name i l, x.form = form name i l → i + l ≤ n) :
    ∃ order start stop, (∀ x ∈ order, x ∈ xs) ∧ Chained start order p.rhs stop ∧ stop ≤ n ∧
      y.form = form p.lhs start (stop - start) := by
  cases h with
  | @spans order start stop hp hperm hchain =>
      have hstop := hchain.stop_le hp fun x hx => hroom x (hperm.subset hx)
      exact ⟨order, start, stop, fun x hx => hperm.subset hx, hchain, hstop, rfl⟩
  | @empty x i hp hxs hx =>
      subst hxs
      refine ⟨[], i, i, nofun, hp ▸ .nil i, hroom x List.mem_cons_self _ _ _ hx, ?_⟩
      rw [Nat.sub_self]
      rfl

end DeductiveParsing.Cyk
