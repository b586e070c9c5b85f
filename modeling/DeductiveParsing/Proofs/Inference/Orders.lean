/-
What a rule concludes does not depend on the order in which its antecedents are given.

* `findSome?_walks_congr`: a search through all orders of the antecedents;
* `CykRule.map_shape_general`, `UngerRule.fire_complete_congr`: the rules with any number of
  premises;
* `Rule.IsUnambiguous`: the names of a production cannot be taken for questions or answers;
* `Rule.map_shape_of_forms`: the shape of what an unweighted rule concludes depends on the forms of
  the antecedents alone;
* `Rule.map_shape_of_cores`: with the weights of the antecedents the same holds for all rules.
-/
import Mathlib.Tactic
import DeductiveParsing.Proofs.Choice
import DeductiveParsing.Proofs.Inference.Shape

namespace DeductiveParsing

open Firing

variable {W : Type}

/-! ### Lists with the same forms -/

/-- If two lists have the same images in some order, every order of one is matched by an order of
the other. -/
lemma exists_perm_map_eq {α β : Type} {f : α → β} {xs ys order : List α}
    (h : (xs.map f).Perm (ys.map f)) (horder : order.Perm xs) :
    ∃ order' : List α, order'.Perm ys ∧ order'.map f = order.map f := by
  have hperm : (order.map f).Perm (ys.map f) := (horder.map f).trans h
  have hcomp := congrFun (congrFun (List.eq_map_comp_perm f) (order.map f)) ys
  obtain ⟨order', heq, hperm⟩ := hcomp.mpr hperm
  exact ⟨order', hperm, heq.symm⟩

lemma Item.symbol?_congr {x y : Item W} (h : x.form = y.form) (i : ℕ) :
    x.symbol? i = y.symbol? i := by
  rw [symbol?, symbol?, field?, field?, h]

lemma Item.index?_congr {x y : Item W} (h : x.form = y.form) (i : ℕ) :
    x.index? i = y.index? i := by
  rw [index?, index?, field?, field?, h]

/-! ### Searching through orders -/

/-- A search through the orders of antecedents finds the same for all antecedents with the same
forms, if what it finds in an order depends on the forms only, is the same in every order, and
lies at the end of a walk. -/
lemma findSome?_walks_congr {σ β : Type} {step : σ → Item W → Option σ} {s : σ}
    {find : List (Item W) → Option β} {xs ys : List (Item W)}
    (hcongr : ∀ o o', o.map Item.form = o'.map Item.form → find o = find o')
    (hwalk : ∀ o b, o.length = xs.length → find o = some b → (o.foldlM step s).isSome)
    (hunique : ∀ o o' b b', o.Perm xs → o'.Perm xs → find o = some b → find o' = some b' → b = b')
    (h : (xs.map Item.form).Perm (ys.map Item.form)) :
    (Choice.walks step xs.length s xs).findSome? find =
      (Choice.walks step ys.length s ys).findSome? find := by
  have hfound : ∀ zs : List (Item W), (xs.map Item.form).Perm (zs.map Item.form) → ∀ b,
      (Choice.walks step zs.length s zs).findSome? find = some b ↔
        ∃ o : List (Item W), o.Perm xs ∧ find o = some b := by
    intro zs hzs b
    have hback : ∀ b, (Choice.walks step zs.length s zs).findSome? find = some b →
        ∃ o : List (Item W), o.Perm xs ∧ find o = some b := by
      intro b hb
      obtain ⟨o, ho, hfind⟩ := List.exists_of_findSome?_eq_some hb
      obtain ⟨o', hperm, hform⟩ := exists_perm_map_eq hzs.symm (Choice.mem_walks_length.1 ho).1
      exact ⟨o', hperm, (hcongr _ _ hform).trans hfind⟩
    refine ⟨hback b, ?_⟩
    rintro ⟨o, hperm, hfind⟩
    obtain ⟨o', hperm', hform⟩ := exists_perm_map_eq hzs hperm
    have hfind' : find o' = some b := (hcongr _ _ hform).trans hfind
    have hlen : o'.length = xs.length := by
      have hmap := congrArg List.length hform
      rw [List.length_map, List.length_map] at hmap
      rw [hmap, hperm.length_eq]
    have hmem : o' ∈ Choice.walks step zs.length s zs :=
      Choice.mem_walks_length.2 ⟨hperm', hwalk o' b hlen hfind'⟩
    -- something is found, and by uniqueness it is `b`
    have hsome : ((Choice.walks step zs.length s zs).findSome? find).isSome :=
      List.findSome?_isSome_iff.2 ⟨o', hmem, by simp [hfind']⟩
    obtain ⟨b', hb'⟩ := Option.isSome_iff_exists.1 hsome
    obtain ⟨o'', hperm'', hfind''⟩ := hback b' hb'
    rw [hb', hunique _ _ _ _ hperm'' hperm hfind'' hfind]
  refine Option.ext fun b => ?_
  rw [hfound xs (List.Perm.refl _), hfound ys h]

/-- Of consequences with one form only the first is kept. -/
lemma Firing.map_shape_ofItems_distinctForms {name : String} {xs : List (Item W)}
    (h : ∀ x ∈ xs, ∀ y ∈ xs, x.form = y.form) :
    (ofItems name (Item.distinctForms xs)).map shape = xs.head?.map fun x => (name, [x.form]) := by
  cases xs with
  | nil => rfl
  | cons x xs =>
      have hrest : ∀ y ∈ Choice.distinctBy Item.form xs, y.form = x.form := fun y hy =>
        h y (List.mem_cons_of_mem _ (Choice.mem_of_mem_distinctBy hy)) x List.mem_cons_self
      simpa [Item.distinctForms, Choice.distinctBy, ofItems, shape] using hrest

/-! ### Productions of any length -/

namespace CykRule

/-- The number of tokens that spans cover. -/
def covered (spans : List (Item W)) : ℕ := (spans.map fun x => (x.index? 2).getD 0).sum

lemma covered_eq {spans spans' : List (Item W)}
    (h : (spans.map Item.form).Perm (spans'.map Item.form)) : covered spans = covered spans' := by
  obtain ⟨order, hperm, heq⟩ := exists_perm_map_eq h (List.Perm.refl spans)
  have hmap : ∀ xs ys : List (Item W), xs.map Item.form = ys.map Item.form →
      covered xs = covered ys := by
    intro xs
    induction xs with
    | nil =>
        intro ys hys
        rw [List.map_eq_nil_iff.1 hys.symm]
    | cons x xs ih =>
        intro ys hys
        cases ys with
        | nil => simp at hys
        | cons y ys =>
            obtain ⟨hxy, hrest⟩ := List.cons.inj hys
            have hsum := ih ys hrest
            simp only [covered, List.map_cons, List.sum_cons] at hsum ⊢
            rw [Item.index?_congr hxy, hsum]
  rw [hmap spans order heq.symm]
  exact (hperm.map _).sum_eq

/-- Spans that follow one another begin at their first place or behind it, and end behind all
tokens that they cover. -/
lemma chainEnd?_eq_some {place stop : ℕ} {spans : List (Item W)} {symbols : List Symbol}
    (hlen : spans.length = symbols.length) (h : chainEnd? place spans symbols = some stop) :
    stop = place + covered spans ∧ ∀ x ∈ spans, ∃ i, x.index? 1 = some i ∧ place ≤ i := by
  induction spans generalizing place symbols with
  | nil =>
      simp only [chainEnd?, Option.some.injEq] at h
      simp [covered, h]
  | cons x spans ih =>
      cases symbols with
      | nil => simp at hlen
      | cons s symbols =>
          simp only [chainEnd?] at h
          split at h
          · rename_i hx
            cases hl : x.index? 2 with
            | none => simp [hl] at h
            | some l =>
                rw [hl] at h
                obtain ⟨hstop, hrest⟩ := ih (by simpa using hlen) h
                refine ⟨?_, ?_⟩
                · simp only [covered, List.map_cons, List.sum_cons, hl, Option.getD_some] at hstop ⊢
                  omega
                · intro y hy
                  rcases List.mem_cons.1 hy with rfl | hy
                  · exact ⟨place, hx.2, le_rfl⟩
                  · obtain ⟨i, hi, hle⟩ := hrest y hy
                    exact ⟨i, hi, by omega⟩
          · simp at h

lemma chainEnd?_congr {place : ℕ} {spans spans' : List (Item W)} {symbols : List Symbol}
    (h : spans.map Item.form = spans'.map Item.form) :
    chainEnd? place spans symbols = chainEnd? place spans' symbols := by
  induction spans generalizing place spans' symbols with
  | nil => rw [List.map_eq_nil_iff.1 h.symm]
  | cons x spans ih =>
      cases spans' with
      | nil => simp at h
      | cons y spans' =>
          obtain ⟨hxy, hrest⟩ := List.cons.inj h
          cases symbols with
          | nil => rfl
          | cons s symbols =>
              simp only [chainEnd?, Item.symbol?_congr hxy, Item.index?_congr hxy]
              split
              · split
                · exact ih hrest
                · rfl
              · rfl

/-- Spans that follow one another lead through all symbols. -/
lemma isSome_foldlM_step {place stop : ℕ} {spans : List (Item W)} {symbols : List Symbol}
    (hlen : spans.length = symbols.length) (h : chainEnd? place spans symbols = some stop) :
    (spans.foldlM Progress.step ⟨symbols, some place⟩).isSome := by
  induction spans generalizing place symbols with
  | nil => rfl
  | cons x spans ih =>
      cases symbols with
      | nil => simp at hlen
      | cons s symbols =>
          simp only [chainEnd?] at h
          split at h
          · rename_i hx
            cases hl : x.index? 2 with
            | none => simp [hl] at h
            | some l =>
                rw [hl] at h
                have hstep : Progress.step ⟨s :: symbols, some place⟩ x
                    = some ⟨symbols, some (place + l)⟩ := by
                  simp [Progress.step, hx, hl]
                rw [List.foldlM_cons, hstep]
                exact ih (by simpa using hlen) h
          · simp at h

/-- What spans in the order of the right-hand side say: they begin at the least of their places. -/
lemma form_of_joinAll {p : Production} {spans : List (Item W)} {y : Item W}
    (hlen : spans.length = p.rhs.length) (h : joinAll p spans = some y) :
    ∃ start, (∃ x ∈ spans, x.index? 1 = some start) ∧
      (∀ x ∈ spans, ∃ i, x.index? 1 = some i ∧ start ≤ i) ∧
      y.form = [.symbol p.lhs, .index start, .index (covered spans)] := by
  simp only [joinAll, Option.bind_eq_bind, Option.bind_eq_some_iff] at h
  obtain ⟨x, hx, start, hstart, stop, hstop, heq⟩ := h
  obtain ⟨rfl, hall⟩ := chainEnd?_eq_some hlen hstop
  refine ⟨start, ⟨x, List.mem_of_mem_head? hx, hstart⟩, hall, ?_⟩
  rw [← Option.some.inj heq]
  simp [item, Item.withTrees]

lemma joinAll_congr {p : Production} {spans spans' : List (Item W)} {y : Item W}
    (h : spans.map Item.form = spans'.map Item.form) (hy : joinAll p spans = some y) :
    ∃ y', joinAll p spans' = some y' ∧ y'.form = y.form := by
  simp only [joinAll, Option.bind_eq_bind, Option.bind_eq_some_iff] at hy
  obtain ⟨x, hx, start, hstart, stop, hstop, heq⟩ := hy
  cases spans' with
  | nil => simp_all
  | cons x' rest =>
      cases spans with
      | nil => simp at hx
      | cons z spans =>
          obtain rfl : z = x := by simpa using hx
          have hform : z.form = x'.form := (List.cons.inj h).1
          rw [chainEnd?_congr h] at hstop
          rw [Item.index?_congr hform] at hstart
          refine ⟨item p.lhs start (stop - start)
            (Forest.fill (Tree.ofProduction p) (nonterminalForests (x' :: rest) p.rhs)), ?_, ?_⟩
          · simp only [joinAll, List.head?_cons, Option.bind_eq_bind, Option.bind_some, hstart,
              hstop]
            rfl
          · rw [← Option.some.inj heq]
            rfl

/-- The first of such spans may begin anywhere. -/
lemma isSome_walk_of_joinAll {p : Production} {spans : List (Item W)} {y : Item W}
    (hlen : spans.length = p.rhs.length) (h : joinAll p spans = some y) :
    (spans.foldlM Progress.step ⟨p.rhs, none⟩).isSome := by
  simp only [joinAll, Option.bind_eq_bind, Option.bind_eq_some_iff] at h
  obtain ⟨x, hx, start, hstart, stop, hstop, -⟩ := h
  have hwalk := isSome_foldlM_step hlen hstop
  cases spans with
  | nil => simp at hx
  | cons z rest =>
      obtain rfl : z = x := by simpa using hx
      have hfirst : Progress.step ⟨p.rhs, none⟩ z = Progress.step ⟨p.rhs, some start⟩ z := by
        cases hrhs : p.rhs with
        | nil => simp [hrhs] at hlen
        | cons s symbols => simp [Progress.step, hstart]
      rwa [List.foldlM_cons, hfirst, ← List.foldlM_cons]

/-- What spans say does not depend on their order, nor on anything but their forms. -/
lemma map_shape_general {p : Production} {xs ys : List (Item W)} (hrhs : p.rhs ≠ [])
    (hlen : xs.length = p.rhs.length) (h : (xs.map Item.form).Perm (ys.map Item.form)) :
    ((general p).fire xs).map shape = ((general p).fire ys).map shape := by
  have hunique : ∀ zs o o' : List (Item W), ∀ y y', zs.length = p.rhs.length → o.Perm zs →
      o'.Perm zs → joinAll p o = some y → joinAll p o' = some y' → y.form = y'.form := by
    intro zs o o' y y' hzs ho ho' hy hy'
    obtain ⟨start, ⟨x, hx, hstart⟩, hleast, hform⟩ := form_of_joinAll (ho.length_eq.trans hzs) hy
    obtain ⟨start', ⟨x', hx', hstart'⟩, hleast', hform'⟩ :=
      form_of_joinAll (ho'.length_eq.trans hzs) hy'
    -- each of the two places is where the span of the other begins at the earliest
    obtain ⟨i, hi, hle⟩ := hleast x' ((ho'.trans ho.symm).subset hx')
    obtain ⟨i', hi', hle'⟩ := hleast' x ((ho.trans ho'.symm).subset hx)
    obtain rfl : i = start' := Option.some.inj (hi.symm.trans hstart')
    obtain rfl : i' = start := Option.some.inj (hi'.symm.trans hstart)
    rw [hform, hform', le_antisymm hle hle', covered_eq ((ho.trans ho'.symm).map Item.form)]
  have hfire : ∀ zs : List (Item W), zs.length = p.rhs.length →
      ((general p).fire zs).map shape = ((spanOrders p zs).findSome? fun o =>
        (joinAll p o).map Item.form).map fun form => (name (general p), [form]) := by
    intro zs hzs
    have hsame : ∀ y ∈ (spanOrders p zs).filterMap (joinAll p),
        ∀ y' ∈ (spanOrders p zs).filterMap (joinAll p), y.form = y'.form := by
      intro y hy y' hy'
      obtain ⟨o, ho, hjoin⟩ := List.mem_filterMap.1 hy
      obtain ⟨o', ho', hjoin'⟩ := List.mem_filterMap.1 hy'
      exact hunique zs o o' y y' hzs (Choice.mem_walks_length.1 ho).1
        (Choice.mem_walks_length.1 ho').1 hjoin hjoin'
    have hempty : p.isEmpty = false := by simpa [Production.isEmpty] using hrhs
    simp only [fire, hempty, Bool.false_eq_true, ↓reduceIte]
    rw [map_shape_ofItems_distinctForms hsame, List.head?_filterMap]
    have hcomp : (fun y : Item W => (name (general p), [y.form])) =
        (fun form => (name (general p), [form])) ∘ Item.form := rfl
    rw [hcomp, ← Option.map_map, List.map_findSome?]
    rfl
  have hlen' : ys.length = p.rhs.length := by
    have hlength := h.length_eq
    rw [List.length_map, List.length_map] at hlength
    exact hlength.symm.trans hlen
  rw [hfire xs hlen, hfire ys hlen']
  congr 1
  refine findSome?_walks_congr (fun o o' ho => ?_) (fun o form ho hform => ?_)
    (fun o o' form form' ho ho' hform hform' => ?_) h
  · refine Option.ext fun form => ?_
    simp only [Option.map_eq_some_iff]
    constructor
    · rintro ⟨y, hy, rfl⟩
      exact joinAll_congr ho hy
    · rintro ⟨y, hy, rfl⟩
      exact joinAll_congr ho.symm hy
  · obtain ⟨y, hy, -⟩ := Option.map_eq_some_iff.1 hform
    exact isSome_walk_of_joinAll (ho.trans hlen) hy
  · obtain ⟨y, hy, rfl⟩ := Option.map_eq_some_iff.1 hform
    obtain ⟨y', hy', rfl⟩ := Option.map_eq_some_iff.1 hform'
    exact hunique xs o o' y y' hlen ho ho' hy hy'

end CykRule

/-! ### Answers to a question -/

namespace UngerRule

/-- Whether the names of a production are not empty and do not hold the mark of questions and
answers. -/
def HasPlainNames (p : Production) : Prop :=
  ∀ name ∈ p.lhs :: p.rhsNames, name ≠ "" ∧ '•' ∉ name.toList

/-- No question is an answer for a name without the mark. -/
lemma asked_ne_answered {a b : String} (hne : b ≠ "") (hplain : '•' ∉ b.toList) :
    asked a ≠ answered b := by
  intro h
  have hlist : '•' :: a.toList = b.toList ++ ['•'] := by
    simpa [asked, answered] using congrArg String.toList h
  cases hb : b.toList with
  | nil => exact hne (String.toList_eq_nil_iff.1 hb)
  | cons c rest =>
      rw [hb] at hlist
      obtain ⟨rfl, -⟩ := List.cons.inj hlist
      exact hplain (by rw [hb]; exact List.mem_cons_self)

lemma chained_congr {place stop : ℕ} {answers answers' : List (Item W)} {parts : List String}
    (h : answers.map Item.form = answers'.map Item.form) :
    chained place stop answers parts = chained place stop answers' parts := by
  induction answers generalizing place answers' parts with
  | nil => rw [List.map_eq_nil_iff.1 h.symm]
  | cons x answers ih =>
      cases answers' with
      | nil => simp at h
      | cons y answers' =>
          obtain ⟨hxy, hrest⟩ := List.cons.inj h
          cases parts with
          | nil => rfl
          | cons part parts =>
              simp only [chained, Item.symbol?_congr hxy, Item.index?_congr hxy]
              split
              · split
                · exact ih hrest
                · rfl
              · rfl

/-- Chained answers are answers for the given names. -/
lemma symbol?_of_chained {place stop : ℕ} {answers : List (Item W)} {parts : List String}
    (hlen : answers.length = parts.length) (h : chained place stop answers parts = true) :
    ∀ x ∈ answers, ∃ part ∈ parts, x.symbol? 0 = some part := by
  induction answers generalizing place parts with
  | nil => simp
  | cons x answers ih =>
      cases parts with
      | nil => simp at hlen
      | cons part parts =>
          simp only [chained] at h
          split at h
          · rename_i hx
            cases hnext : x.index? 2 with
            | none => simp [hnext] at h
            | some next =>
                rw [hnext] at h
                intro y hy
                rcases List.mem_cons.1 hy with rfl | hy
                · exact ⟨part, List.mem_cons_self, hx.1⟩
                · obtain ⟨part', hpart', hy'⟩ := ih (by simpa using hlen) h y hy
                  exact ⟨part', List.mem_cons_of_mem _ hpart', hy'⟩
          · simp at h

/-- Chained answers lead through all names. -/
lemma isSome_foldlM_step {p : Production} {place stop : ℕ} {answers : List (Item W)}
    {parts : List String} (hlen : answers.length = parts.length)
    (h : chained place stop answers parts = true) :
    (answers.foldlM (Progress.step p) (.awaiting place parts)).isSome := by
  induction answers generalizing place parts with
  | nil => rfl
  | cons x answers ih =>
      cases parts with
      | nil => simp at hlen
      | cons part parts =>
          simp only [chained] at h
          split at h
          · rename_i hx
            cases hnext : x.index? 2 with
            | none => simp [hnext] at h
            | some next =>
                rw [hnext] at h
                have hstep : Progress.step p (.awaiting place (part :: parts)) x
                    = some (.awaiting next parts) := by
                  simp [Progress.step, hx, hnext]
                rw [List.foldlM_cons, hstep]
                exact ih (by simpa using hlen) h
          · simp at h

/-- What an answer is given to: a question, and answers that follow one another. -/
lemma answer?_eq_some {p : Production} {order : List (Item W)} {f : Firing W}
    (h : answer? p order = some f) :
    ∃ question answers i j, order = question :: answers ∧ question.index? 1 = some i ∧
      question.index? 2 = some j ∧ question.symbol? 0 = some (asked p.lhs) ∧
      chained i j answers (p.rhsNames.map answered) = true ∧
      f = ⟨name (complete p), [item (answered p.lhs) i j]⟩ := by
  cases order with
  | nil => simp [answer?] at h
  | cons question answers =>
      simp only [answer?, Option.bind_eq_bind, Option.bind_eq_some_iff,
        Option.ite_none_right_eq_some] at h
      obtain ⟨i, hi, j, hj, ⟨hasked, hchained⟩, h⟩ := h
      exact ⟨question, answers, i, j, rfl, hi, hj, hasked, hchained, (Option.some.inj h).symm⟩

lemma answer?_congr {p : Production} {order order' : List (Item W)}
    (h : order.map Item.form = order'.map Item.form) : answer? p order = answer? p order' := by
  cases order with
  | nil => rw [List.map_eq_nil_iff.1 h.symm]
  | cons question answers =>
      cases order' with
      | nil => simp at h
      | cons question' answers' =>
          obtain ⟨hxy, hrest⟩ := List.cons.inj h
          simp only [answer?, Item.index?_congr hxy, Item.symbol?_congr hxy, chained_congr hrest]

/-- An answer to a question does not depend on the order of the question and the answers before it,
nor on anything but their forms. -/
lemma fire_complete_congr {p : Production} {xs ys : List (Item W)} (hplain : HasPlainNames p)
    (hlen : xs.length = p.rhs.length + 1) (h : (xs.map Item.form).Perm (ys.map Item.form)) :
    (complete p).fire xs = (complete p).fire ys := by
  have hparts : ∀ {answers : List (Item W)}, answers.length + 1 = xs.length →
      answers.length = (p.rhsNames.map answered).length := by
    intro answers hanswers
    simp only [Production.rhsNames, List.length_map]
    omega
  refine findSome?_walks_congr (fun o o' => answer?_congr) (fun o f ho hf => ?_)
    (fun o o' f f' ho ho' hf hf' => ?_) h
  · obtain ⟨question, answers, i, j, rfl, hi, -, hasked, hchained, -⟩ := answer?_eq_some hf
    have hstep : Progress.step p .unasked question
        = some (.awaiting i (p.rhsNames.map answered)) := by
      simp [Progress.step, hasked, hi]
    rw [List.foldlM_cons, hstep]
    exact isSome_foldlM_step (hparts ho) hchained
  · obtain ⟨q, as, i, j, rfl, hi, hj, hasked, hchained, rfl⟩ := answer?_eq_some hf
    obtain ⟨q', as', i', j', rfl, hi', hj', hasked', -, rfl⟩ := answer?_eq_some hf'
    -- the question of one order is none of the answers in the other, so it is the question there
    have hq : q' = q := by
      rcases List.mem_cons.1 ((ho'.trans ho.symm).subset List.mem_cons_self) with hq | hq
      · exact hq
      · obtain ⟨part, hpart, hsymbol⟩ := symbol?_of_chained (hparts ho.length_eq) hchained q' hq
        obtain ⟨b, hb, rfl⟩ := List.mem_map.1 hpart
        obtain ⟨hne, hmark⟩ := hplain b (List.mem_cons_of_mem _ hb)
        exact absurd (Option.some.inj (hasked'.symm.trans hsymbol)) (asked_ne_answered hne hmark)
    subst hq
    obtain rfl : i = i' := Option.some.inj (hi.symm.trans hi')
    obtain rfl : j = j' := Option.some.inj (hj.symm.trans hj')
    rfl

end UngerRule

/-! ### All rules -/

namespace Rule

/-- Whether a rule looks at forms only. -/
def IsUnweighted : Rule W → Prop
  | weighted _ => False
  | _ => True

/-- Whether the questions and answers that a rule reads cannot be mistaken for one another. -/
def IsUnambiguous : Rule W → Prop
  | unger (.complete p) => UngerRule.HasPlainNames p
  | _ => True

/-- Every rule has a premise. -/
lemma arity_pos (rule : Rule W) : 0 < rule.arity := by
  cases rule with
  | cyk r => cases r <;> simp [arity, CykRule.arity]
  | earley r => cases r <;> simp [arity, EarleyRule.arity]
  | unger r => cases r <;> simp [arity, UngerRule.arity]
  | treeCyk r => cases r <;> simp [arity, TreeCykRule.arity]
  | treeEarley r => cases r <;> simp [arity, TreeEarleyRule.arity]
  | topDown r => cases r <;> simp [arity, TopDownRule.arity]
  | shiftReduce r => cases r <;> simp [arity, ShiftReduceRule.arity]
  | leftCorner r => cases r <;> simp [arity, LeftCornerRule.arity]
  | lr r => simp [arity, LrRule.arity]
  | weighted r => simp [arity, WeightedRule.arity]

/-- A rule fires on as many antecedents as it has premises. -/
lemma fire?_eq_some [Weight W] {rule : Rule W} {xs : List (Item W)} {f : Firing W} :
    rule.fire? xs = some f ↔ xs.length = rule.arity ∧ rule.fire xs = some f := by
  rw [fire?]
  split <;> simp_all

/-- One antecedent may be exchanged for another one with the same form. -/
lemma map_shape_of_readsForm {fire : List (Item W) → Option (Firing W)}
    (h : ReadsForm fun x => fire [x]) {xs ys : List (Item W)} (hlen : xs.length = 1)
    (hforms : (xs.map Item.form).Perm (ys.map Item.form)) :
    (fire xs).map shape = (fire ys).map shape := by
  obtain ⟨⟨form, w, ts⟩, rfl⟩ := List.length_eq_one_iff.1 hlen
  have hlen' : ys.length = 1 := by simpa using hforms.length_eq.symm
  obtain ⟨⟨form', w', ts'⟩, rfl⟩ := List.length_eq_one_iff.1 hlen'
  obtain rfl : form = form' := by simpa using hforms
  exact h form w ts w' ts'

lemma eq_or_eq_of_perm_pair {α : Type} {a b c d : α} (h : [a, b].Perm [c, d]) :
    (a = c ∧ b = d) ∨ (a = d ∧ b = c) := by
  have ha : a = c ∨ a = d := by simpa using h.subset List.mem_cons_self
  rcases ha with rfl | rfl
  · exact Or.inl ⟨rfl, by simpa using h.cons_inv⟩
  · exact Or.inr ⟨rfl, by simpa using (h.trans (List.Perm.swap a c [])).cons_inv⟩

/-- Two antecedents of a symmetric rule may be exchanged for others that look the same, in either
order. -/
lemma map_shape_of_isSymmetric {κ : Type} {look : Item W → κ}
    {fire : Item W → Item W → Option (Firing W)} (hsymmetric : IsSymmetric fire)
    (hreads : ∀ x x' y y', look x = look x' → look y = look y' →
      (fire x y).map shape = (fire x' y').map shape)
    {x y : Item W} {ys : List (Item W)} (h : ([x, y].map look).Perm (ys.map look)) :
    ∃ x' y', ys = [x', y'] ∧
      (eitherOrder? fire x y).map shape = (eitherOrder? fire x' y').map shape := by
  have hlen : ys.length = 2 := by simpa using h.length_eq.symm
  obtain ⟨x', y', rfl⟩ := List.length_eq_two.1 hlen
  refine ⟨x', y', rfl, ?_⟩
  rcases eq_or_eq_of_perm_pair h with ⟨hx, hy⟩ | ⟨hx, hy⟩
  · rw [map_shape_eitherOrder?, map_shape_eitherOrder?, hreads _ _ _ _ hx hy, hreads _ _ _ _ hy hx]
  · rw [hsymmetric.map_shape_swap x' y', map_shape_eitherOrder?, map_shape_eitherOrder?,
      hreads _ _ _ _ hx hy, hreads _ _ _ _ hy hx]

lemma map_shape_of_readsForms {fire : Item W → Item W → Option (Firing W)}
    {fireAll : List (Item W) → Option (Firing W)} (hsymmetric : IsSymmetric fire)
    (hreads : ReadsForms fire) (hall : ∀ x y, fireAll [x, y] = eitherOrder? fire x y)
    {xs ys : List (Item W)} (hlen : xs.length = 2)
    (h : (xs.map Item.form).Perm (ys.map Item.form)) :
    (fireAll xs).map shape = (fireAll ys).map shape := by
  obtain ⟨x, y, rfl⟩ := List.length_eq_two.1 hlen
  have hsame : ∀ x x' y y' : Item W, x.form = x'.form → y.form = y'.form →
      (fire x y).map shape = (fire x' y').map shape := by
    rintro ⟨form₁, w₁, ts₁⟩ ⟨_, w₁', ts₁'⟩ ⟨form₂, w₂, ts₂⟩ ⟨_, w₂', ts₂'⟩ rfl rfl
    exact hreads form₁ form₂ w₁ ts₁ w₂ ts₂ w₁' ts₁' w₂' ts₂'
  obtain ⟨x', y', rfl, heq⟩ := map_shape_of_isSymmetric hsymmetric hsame h
  rw [hall, hall, heq]

lemma map_shape_of_readsCores {fire : Item W → Item W → Option (Firing W)}
    {fireAll : List (Item W) → Option (Firing W)} (hsymmetric : IsSymmetric fire)
    (hreads : ReadsCores fire) (hall : ∀ x y, fireAll [x, y] = eitherOrder? fire x y)
    {xs ys : List (Item W)} (hlen : xs.length = 2)
    (h : (xs.map Item.core).Perm (ys.map Item.core)) :
    (fireAll xs).map shape = (fireAll ys).map shape := by
  obtain ⟨x, y, rfl⟩ := List.length_eq_two.1 hlen
  have hsame : ∀ x x' y y' : Item W, x.core = x'.core → y.core = y'.core →
      (fire x y).map shape = (fire x' y').map shape := by
    rintro ⟨form₁, w₁, ts₁⟩ ⟨form₁', w₁', ts₁'⟩ ⟨form₂, w₂, ts₂⟩ ⟨form₂', w₂', ts₂'⟩ hx hy
    obtain ⟨rfl, rfl⟩ := Prod.mk.inj hx
    obtain ⟨rfl, rfl⟩ := Prod.mk.inj hy
    exact hreads form₁ form₂ w₁ w₂ ts₁ ts₂ ts₁' ts₂'
  obtain ⟨x', y', rfl, heq⟩ := map_shape_of_isSymmetric hsymmetric hsame h
  rw [hall, hall, heq]

/-- The name under which an unweighted rule fires and the forms of its consequences depend neither
on the order of the antecedents nor on anything but their forms. -/
theorem map_shape_of_forms [Weight W] {rule : Rule W} (hweight : rule.IsUnweighted)
    (hplain : rule.IsUnambiguous) {xs ys : List (Item W)}
    (h : (xs.map Item.form).Perm (ys.map Item.form)) :
    (rule.fire? xs).map shape = (rule.fire? ys).map shape := by
  have hlength : xs.length = ys.length := by simpa using h.length_eq
  rw [fire?, fire?, hlength]
  split
  · rename_i hlen
    rw [← hlength] at hlen
    cases rule with
    | topDown r => exact map_shape_of_readsForm r.readsForm hlen h
    | shiftReduce r => exact map_shape_of_readsForm r.readsForm hlen h
    | leftCorner r => exact map_shape_of_readsForm r.readsForm hlen h
    | lr r => exact map_shape_of_readsForm r.readsForm hlen h
    | weighted r => exact hweight.elim
    | earley r =>
        cases r with
        | scan tokens => exact map_shape_of_readsForm (EarleyRule.readsForm _) hlen h
        | predict p => exact map_shape_of_readsForm (EarleyRule.readsForm _) hlen h
        | complete =>
            exact map_shape_of_readsForms EarleyRule.isOneWay_completeWith.isSymmetric
              EarleyRule.readsForms_completeWith (fun _ _ => rfl) hlen h
    | cyk r =>
        cases r with
        | binary p =>
            exact map_shape_of_readsForms (CykRule.isSymmetric_joinTwo p)
              (CykRule.readsForms_joinTwo p) (fun _ _ => rfl) hlen h
        | unary p => exact map_shape_of_readsForm (CykRule.readsForm_unary p) hlen h
        | general p =>
            simp only [arity, CykRule.arity] at hlen
            by_cases hrhs : p.rhs = []
            · have hempty : p.isEmpty = true := by simp [Production.isEmpty, hrhs]
              have hone : ∀ x : Item W,
                  (CykRule.general p).fire [x] = CykRule.placeEmpty p x := fun x => by
                simp [CykRule.fire, hempty]
              have hreads : ReadsForm fun x : Item W => (CykRule.general p).fire [x] := by
                simpa only [hone] using CykRule.readsForm_placeEmpty p
              exact map_shape_of_readsForm hreads (by simpa [hrhs] using hlen) h
            · have hpos : 0 < p.rhs.length := List.length_pos_iff.2 hrhs
              exact CykRule.map_shape_general hrhs (by omega) h
    | unger r =>
        cases r with
        | predict p => exact map_shape_of_readsForm (UngerRule.readsForm_predict p) hlen h
        | scan tokens => exact map_shape_of_readsForm (UngerRule.readsForm_scan tokens) hlen h
        | complete p => exact congrArg _ (UngerRule.fire_complete_congr hplain hlen h)
    | treeCyk r =>
        cases r with
        | moveBinary g =>
            exact map_shape_of_readsForms (TreeCykRule.isOneWay_joinTwo g).isSymmetric
              (TreeCykRule.readsForms_joinTwo g) (fun _ _ => rfl) hlen h
        | adjoin g =>
            exact map_shape_of_readsForms (TreeCykRule.isOneWay_wrap g).isSymmetric
              (TreeCykRule.readsForms_wrap g) (fun _ _ => rfl) hlen h
        | _ => exact map_shape_of_readsForm (TreeCykRule.readsForm _) hlen h
    | treeEarley r =>
        cases r with
        | completeFoot g =>
            exact map_shape_of_readsForms (TreeEarleyRule.isOneWay_fillFoot g).isSymmetric
              (TreeEarleyRule.readsForms_fillFoot g) (fun _ _ => rfl) hlen h
        | completeNode g =>
            exact map_shape_of_readsForms (TreeEarleyRule.isOneWay_closeNode g).isSymmetric
              (TreeEarleyRule.readsForms_closeNode g) (fun _ _ => rfl) hlen h
        | adjoin g =>
            exact map_shape_of_readsForms (TreeEarleyRule.isOneWay_wrap g).isSymmetric
              (TreeEarleyRule.readsForms_wrap g) (fun _ _ => rfl) hlen h
        | _ => exact map_shape_of_readsForm (TreeEarleyRule.readsForm _) hlen h
  · rfl

/-- With the weights of the antecedents, the same holds for all rules. -/
theorem map_shape_of_cores [Weight W] {rule : Rule W} (hplain : rule.IsUnambiguous)
    {xs ys : List (Item W)} (h : (xs.map Item.core).Perm (ys.map Item.core)) :
    (rule.fire? xs).map shape = (rule.fire? ys).map shape := by
  by_cases hweight : rule.IsUnweighted
  · have hforms := h.map Prod.fst
    rw [Item.map_fst_core, Item.map_fst_core] at hforms
    exact map_shape_of_forms hweight hplain hforms
  · cases rule with
    | weighted r =>
        have hlength : xs.length = ys.length := by simpa using h.length_eq
        rw [fire?, fire?, hlength]
        split
        · rename_i hlen
          rw [← hlength] at hlen
          cases r with
          | product p =>
              exact map_shape_of_readsCores (WeightedRule.isSymmetric_joinProduct p)
                (WeightedRule.readsCores_joinProduct p) (fun _ _ => rfl) hlen h
          | guided p e =>
              exact map_shape_of_readsCores (WeightedRule.isSymmetric_joinGuided p e)
                (WeightedRule.readsCores_joinGuided p e) (fun _ _ => rfl) hlen h
        · rfl
    | _ => exact absurd trivial hweight

end Rule

end DeductiveParsing
