/-
Runs that keep only the best derivation of an item.

* `OrderedWeight`: weights that are compared by a strict order;
* `Policy.Improves`: what an item may be changed to: itself, or a strictly preferred one;
* `State.merge_cases`: a consequence is put into the chart, or nothing changes;
* `settling`: at the end, nothing that a rule concludes is preferred to what the chart has;
* `IsSupported`: every entry has one derivation, by an axiom or by a rule that fired on items which
  have only been improved since;
* `reproduces_of_finalState`: if rules are monotone, that derivation gives what the entry has from
  the items at the end.
-/
import DeductiveParsing.Proofs.Deduction.Exhaustion

namespace DeductiveParsing

variable {W : Type} [Weight W]

/-- Weights that are compared by a strict order, which need not be total. -/
class OrderedWeight (W : Type) [Weight W] : Prop where
  less_irrefl : ∀ x : W, Weight.less x x = false
  less_trans : ∀ x y z : W, Weight.less x y = true → Weight.less y z = true →
    Weight.less x z = true

namespace Policy

variable [OrderedWeight W] {policy : Policy} {x y z : Item W}

lemma prefers_irrefl (policy : Policy) (w : Option W) : policy.prefers w w = false := by
  cases policy <;> cases w <;> simp [prefers, OrderedWeight.less_irrefl]

lemma prefers_trans {u v w : Option W} (huv : policy.prefers u v = true)
    (hvw : policy.prefers v w = true) : policy.prefers u w = true := by
  cases policy <;> cases u <;> cases v <;> cases w <;>
    simp only [prefers, Bool.false_eq_true] at huv hvw ⊢
  · exact OrderedWeight.less_trans _ _ _ hvw huv
  · exact OrderedWeight.less_trans _ _ _ huv hvw

omit [OrderedWeight W] in
/-- Whether an item is another one, or has its form and a strictly preferred weight. -/
def Improves (policy : Policy) (x y : Item W) : Prop :=
  y.form = x.form ∧ (y = x ∨ policy.prefers y.weight x.weight = true)

omit [OrderedWeight W] in
lemma Improves.refl (policy : Policy) (x : Item W) : policy.Improves x x := ⟨rfl, Or.inl rfl⟩

lemma Improves.trans (h : policy.Improves x y) (h' : policy.Improves y z) :
    policy.Improves x z := by
  obtain ⟨hform, hy⟩ := h
  obtain ⟨hform', hz⟩ := h'
  refine ⟨hform'.trans hform, ?_⟩
  rcases hy with rfl | hy
  · exact hz
  · rcases hz with rfl | hz
    · exact Or.inr hy
    · exact Or.inr (prefers_trans hz hy)

/-- What is not preferred to an item is not preferred to a better one. -/
lemma Improves.prefers_eq_false (h : policy.Improves x y) {w : Option W}
    (hw : policy.prefers w x.weight = false) : policy.prefers w y.weight = false := by
  rcases h.2 with rfl | hy
  · exact hw
  · rw [← Bool.not_eq_true] at hw ⊢
    exact fun hwy => hw (prefers_trans hwy hy)

end Policy

/-- Whether all items of a chart are in another one at the same positions, or strictly preferred
ones are. -/
def Chart.Improves (policy : Policy) (c c' : Chart W) : Prop :=
  ∀ i x, c.item? i = some x → ∃ y, c'.item? i = some y ∧ policy.Improves x y

lemma Chart.Improves.refl (policy : Policy) (c : Chart W) : c.Improves policy c :=
  fun _ x hx => ⟨x, hx, .refl policy x⟩

lemma Chart.Improves.trans [OrderedWeight W] {policy : Policy} {c c' c'' : Chart W}
    (h : c.Improves policy c') (h' : c'.Improves policy c'') : c.Improves policy c'' := by
  intro i x hx
  obtain ⟨y, hy, hxy⟩ := h i x hx
  obtain ⟨z, hz, hyz⟩ := h' i y hy
  exact ⟨z, hz, hxy.trans hyz⟩

/-- Whether axioms have a property of items and rules preserve it. -/
structure Schema.Produces (schema : Schema W) (Holds : Item W → Prop) : Prop where
  of_axiom : ∀ a ∈ schema.axioms, ∀ x ∈ a.items, Holds x
  of_fire : ∀ rule ∈ schema.rules, ∀ (xs : List (Item W)) (f : Firing W), (∀ x ∈ xs, Holds x) →
    rule.fire? xs = some f → ∀ y ∈ f.items, Holds y

namespace Deduction

variable {settings : Settings} {schema : Schema W} {s t : State W} {x y : Item W} {d : Derivation}

/-! ### One merge -/

/-- Whether a state arises from another one by putting an item with one derivation at a position,
which then waits. -/
structure State.Puts (s : State W) (i : ℕ) (x : Item W) (d : Derivation) (t : State W) : Prop where
  agenda_eq : t.agenda = s.agenda.add i
  entries_eq : ∀ j, t.chart.entries[j]? = if j = i then some ⟨x, [d]⟩ else s.chart.entries[j]?

omit [Weight W] in
lemma State.Puts.item?_eq {i : ℕ} (h : s.Puts i x d t) (j : ℕ) :
    t.chart.item? j = if j = i then some x else s.chart.item? j := by
  rw [Chart.item?, h.entries_eq]
  split <;> rfl

omit [Weight W] in
lemma State.puts_insert (s : State W) (x : Item W) (d : Derivation) :
    s.Puts s.chart.size x d (State.requeue ⟨s.chart.push x d, s.agenda⟩ s.chart.size) :=
  ⟨rfl, Chart.entries_push s.chart x d⟩

/-- A consequence is put where there is no item with its form or a worse one, and otherwise nothing
changes. -/
lemma State.merge_cases (hpolicy : settings.policy ≠ .accumulate) (hs : s.Consistent)
    (h : s.merge settings x d = .ok t) :
    (∃ i, s.Puts i x d t ∧ (i = s.chart.size ∨ ∃ y, s.chart.item? i = some y ∧ y.form = x.form ∧
      settings.policy.prefers x.weight y.weight = true)) ∨
    (t = s ∧ ∃ i y, s.chart.item? i = some y ∧ y.form = x.form ∧
      settings.policy.prefers x.weight y.weight = false) := by
  rw [State.merge] at h
  split at h
  · rw [State.insert_eq_ok h]
    exact Or.inl ⟨_, s.puts_insert x d, Or.inl rfl⟩
  · rename_i i hold
    obtain ⟨y, hy, hform⟩ := Option.map_eq_some_iff.1 (hs.indexed.position?_eq_some.1 hold)
    split at h
    · rename_i haccumulate
      exact absurd haccumulate hpolicy
    · obtain rfl := Except.ok.inj h
      rw [State.improve, hy, Option.bind_some]
      split
      · rename_i hprefers
        refine Or.inl ⟨i, ⟨rfl, fun j => ?_⟩, Or.inr ⟨y, hy, hform, hprefers⟩⟩
        obtain ⟨e, he, -⟩ := Chart.item?_eq_some_iff.1 hy
        rw [State.requeue, Chart.replace, Chart.entries_modify]
        by_cases hij : i = j
        · rw [if_pos hij, if_pos hij.symm, ← hij, he, Option.map_some]
        · rw [if_neg hij, if_neg (Ne.symm hij)]
      · rename_i hprefers
        exact Or.inr ⟨rfl, i, y, hy, hform, by simpa using hprefers⟩

/-- Merging leaves items as they are or puts preferred ones in their place. -/
lemma State.improves_of_merge (hpolicy : settings.policy ≠ .accumulate) (hs : s.Consistent)
    (h : s.merge settings x d = .ok t) : s.chart.Improves settings.policy t.chart := by
  intro j y hy
  rcases State.merge_cases hpolicy hs h with ⟨i, hputs, hi⟩ | ⟨rfl, -⟩
  · rw [hputs.item?_eq]
    split
    · rename_i hij
      rcases hi with hsize | ⟨z, hz, hform, hprefers⟩
      · exact absurd (Chart.lt_size_iff.2 ⟨y, hy⟩) (by omega)
      · obtain rfl : z = y := Option.some.inj (hz.symm.trans (hij ▸ hy))
        exact ⟨x, rfl, hform.symm, Or.inr hprefers⟩
    · exact ⟨y, hy, .refl _ y⟩
  · exact ⟨y, hy, .refl _ y⟩

/-- The items after a merge: those from before and the consequence. -/
lemma State.mem_items_of_merge (hpolicy : settings.policy ≠ .accumulate) (hs : s.Consistent)
    (h : s.merge settings x d = .ok t) (hy : y ∈ t.chart.items) : y ∈ s.chart.items ∨ y = x := by
  rcases State.merge_cases hpolicy hs h with ⟨i, hputs, -⟩ | ⟨rfl, -⟩
  · obtain ⟨j, hj⟩ := hy
    rw [hputs.item?_eq] at hj
    split at hj
    · exact Or.inr (Option.some.inj hj).symm
    · exact Or.inl ⟨j, hj⟩
  · exact Or.inl hy

lemma Grows.improves [OrderedWeight W] (hpolicy : settings.policy ≠ .accumulate)
    (h : Grows settings s t) (hs : s.Consistent) : s.chart.Improves settings.policy t.chart := by
  induction h with
  | refl => exact .refl _ _
  | tail hgrows hstep ih =>
      obtain ⟨x, d, hmerge⟩ := hstep
      exact ih.trans (State.improves_of_merge hpolicy
        (Grows.consistent_and_evolves hgrows hs).1 hmerge)

/-! ### Settled consequences -/

/-- Having an item with the form of a consequence to which this is not preferred is a way of taking
notice of consequences. -/
def settling [OrderedWeight W] (hpolicy : settings.policy ≠ .accumulate) : Upkeep W settings where
  Kept c y := ∃ x ∈ c.items, x.form = y.form ∧ settings.policy.prefers y.weight x.weight = false
  of_merge {s t x d} hs h := by
    rcases State.merge_cases hpolicy hs h with ⟨i, hputs, -⟩ | ⟨rfl, i, y, hy, hform, hworse⟩
    · exact ⟨x, ⟨i, by rw [hputs.item?_eq, if_pos rfl]⟩, rfl, Policy.prefers_irrefl _ _⟩
    · exact ⟨y, ⟨i, hy⟩, hform, hworse⟩
  mono {s t x y d} hs h := by
    rintro ⟨z, ⟨i, hz⟩, hform, hworse⟩
    obtain ⟨z', hz', himproves⟩ := State.improves_of_merge hpolicy hs h i z hz
    exact ⟨z', ⟨i, hz'⟩, himproves.1.trans hform, himproves.prefers_eq_false hworse⟩

/-- At the end of a run, nothing that a rule concludes from items of the chart with different
forms, given in the right order, is preferred to what the chart has. -/
theorem settles_of_finalState [OrderedWeight W] (hpolicy : settings.policy ≠ .accumulate) {fuel : ℕ}
    (h : finalState settings schema fuel = .ok t) {rule : Rule W} (hrule : rule ∈ schema.rules)
    {xs : List (Item W)} (hlength : xs.length = rule.arity) (hxs : ∀ x ∈ xs, x ∈ t.chart.items)
    (hnodup : (xs.map Item.form).Nodup) :
    ∃ ys : List (Item W), ys.Perm xs ∧ ∀ f, rule.fire? ys = some f → ∀ y ∈ f.items,
      ∃ x ∈ t.chart.items, x.form = y.form ∧
        settings.policy.prefers y.weight x.weight = false :=
  (settling hpolicy).kept_of_finalState h hrule hlength hxs hnodup

/-- If the items that axioms give with some form are the same, the chart at the end has that item or
a preferred one. -/
lemma exists_improved_of_mem_axioms [OrderedWeight W] (hpolicy : settings.policy ≠ .accumulate)
    {fuel : ℕ} (h : finalState settings schema fuel = .ok t) {a : Axiom W}
    (ha : a ∈ schema.axioms) (hx : x ∈ a.items)
    (hunique : ∀ b ∈ schema.axioms, ∀ y ∈ b.items, y.form = x.form → y = x) :
    ∃ y ∈ t.chart.items, settings.policy.Improves x y := by
  obtain ⟨s, hseed, hdrain⟩ := finalState_eq_ok h
  have hitems : ∀ y ∈ s.chart.items, ∃ b ∈ schema.axioms, y ∈ b.items := by
    refine seed_induction (P := fun s => ∀ y ∈ s.chart.items, ∃ b ∈ schema.axioms, y ∈ b.items)
      hseed ?_ fun s name y t hy hs ht => ?_
    · rintro y ⟨i, hi⟩
      simp [State.empty] at hi
    · obtain ⟨b, hb, -, hmem⟩ := Schema.mem_axiomItems.1 hy
      rcases MergeStep.of_seedItem ht with ⟨hnew, -⟩ | ⟨-, rfl⟩
      · simp only [seedItem, hnew] at ht
        rw [State.insert_eq_ok ht]
        rintro z ⟨i, hi⟩
        rw [(s.puts_insert y _).item?_eq] at hi
        split at hi
        · exact ⟨b, hb, Option.some.inj hi ▸ hmem⟩
        · exact hs z ⟨i, hi⟩
      · exact hs
  obtain ⟨i, hi⟩ := exists_form_of_seed hseed (Schema.mem_axiomItems.2 ⟨a, ha, rfl, hx⟩)
  obtain ⟨y, hy, hform⟩ := Option.map_eq_some_iff.1 hi
  obtain ⟨b, hb, hyb⟩ := hitems y ⟨i, hy⟩
  obtain rfl := hunique b hb y hyb hform
  refine (drain_induction (P := fun s => s.Consistent ∧ ∃ z ∈ s.chart.items,
    settings.policy.Improves y z) hdrain ⟨(consistent_of_seed hseed).1, y, ⟨i, hy⟩, .refl _ y⟩
      ?_).1.2
  rintro s first agenda t ⟨hs, z, ⟨j, hz⟩, hyz⟩ hnext ht
  have hgrows : Grows settings ⟨s.chart, agenda⟩ t := .of_expand ht
  obtain ⟨z', hz', hzz'⟩ := hgrows.improves hpolicy (hs.pop hnext) j z hz
  exact ⟨(hgrows.consistent_and_evolves (hs.pop hnext)).1, z', ⟨j, hz'⟩, hyz.trans hzz'⟩

/-! ### Where items come from -/

/-- Whether an entry has one derivation, and its item is one of an axiom or of a rule that fired on
items with a property at different positions, which have only been improved since. -/
def Supports (schema : Schema W) (policy : Policy) (Holds : Item W → Prop) (c : Chart W)
    (e : Entry W) : Prop :=
  (∃ a ∈ schema.axioms, e.item ∈ a.items ∧ e.derivations = [⟨a.name, []⟩]) ∨
  ∃ rule ∈ schema.rules, ∃ positions xs f, positions.Nodup ∧ (∀ x ∈ xs, Holds x) ∧
    rule.fire? xs = some f ∧ e.item ∈ f.items ∧
      e.derivations = [⟨f.name, positions.mergeSort⟩] ∧
        List.Forall₂ (fun i x => ∃ y, c.item? i = some y ∧ policy.Improves x y) positions xs

lemma Supports.mono [OrderedWeight W] {policy : Policy} {Holds : Item W → Prop}
    {c c' : Chart W} {e : Entry W} (h : Supports schema policy Holds c e)
    (hc : c.Improves policy c') : Supports schema policy Holds c' e := by
  refine h.imp_right ?_
  rintro ⟨rule, hrule, positions, xs, f, hnodup, hxs, hf, hmem, hd, hall⟩
  refine ⟨rule, hrule, positions, xs, f, hnodup, hxs, hf, hmem, hd, hall.imp ?_⟩
  rintro i x ⟨y, hy, hxy⟩
  obtain ⟨z, hz, hyz⟩ := hc i y hy
  exact ⟨z, hz, hxy.trans hyz⟩

/-- Whether all items of a chart have a property and all entries are supported. -/
def IsSupported (schema : Schema W) (policy : Policy) (Holds : Item W → Prop) (c : Chart W) :
    Prop :=
  ∀ (i : ℕ) (e : Entry W), c.entries[i]? = some e →
    Holds e.item ∧ Supports schema policy Holds c e

section Supported

variable [OrderedWeight W] {Holds : Item W → Prop} {policy : Policy}

/-- Putting a supported item into a chart that improves leaves all entries supported. -/
lemma IsSupported.of_puts {i : ℕ} (hs : IsSupported schema policy Holds s.chart)
    (hputs : s.Puts i x d t) (himproves : s.chart.Improves policy t.chart) (hx : Holds x)
    (hsupports : Supports schema policy Holds t.chart ⟨x, [d]⟩) :
    IsSupported schema policy Holds t.chart := by
  intro j e he
  rw [hputs.entries_eq] at he
  split at he
  · obtain rfl := Option.some.inj he
    exact ⟨hx, hsupports⟩
  · obtain ⟨hholds, h⟩ := hs j e he
    exact ⟨hholds, h.mono himproves⟩

lemma isSupported_of_seedItem {name : String} (hholds : schema.Produces Holds)
    (hx : (name, x) ∈ schema.axiomItems) (hs : IsSupported schema policy Holds s.chart)
    (h : seedItem settings name s x = .ok t) : IsSupported schema policy Holds t.chart := by
  obtain ⟨a, ha, rfl, hmem⟩ := Schema.mem_axiomItems.1 hx
  rcases MergeStep.of_seedItem h with ⟨hnew, -⟩ | ⟨-, rfl⟩
  · simp only [seedItem, hnew] at h
    rw [State.insert_eq_ok h]
    refine hs.of_puts (s.puts_insert x _) (fun j y hy => ?_) (hholds.of_axiom a ha x hmem)
      (Or.inl ⟨a, ha, hmem, rfl⟩)
    have hj := Chart.lt_size_iff.2 ⟨y, hy⟩
    exact ⟨y, by rw [(s.puts_insert x _).item?_eq, if_neg hj.ne, hy], .refl policy y⟩
  · exact hs

lemma isSupported_of_applyAt (hpolicy : settings.policy ≠ .accumulate)
    (hholds : schema.Produces Holds) {rule : Rule W} (hrule : rule ∈ schema.rules)
    {positions : List ℕ} (hnodup : positions.Nodup) (hconsistent : s.Consistent)
    (hs : IsSupported schema settings.policy Holds s.chart)
    (h : s.applyAt settings rule positions = .ok t) :
    IsSupported schema settings.policy Holds t.chart := by
  rcases State.applyAt_cases h with ⟨-, rfl⟩ | ⟨xs, f, hxs, hf, hfold⟩
  · exact hs
  have hpositions := mapM_eq_some_iff.1 hxs
  have hall : ∀ x ∈ xs, Holds x := by
    intro x hx
    obtain ⟨i, hi⟩ := Chart.mem_items_of_map hpositions x hx
    obtain ⟨e, he, rfl⟩ := Chart.item?_eq_some_iff.1 hi
    exact (hs i e he).1
  have hitems : List.Forall₂ (fun i x => s.chart.item? i = some x) positions xs := by
    have heq : List.Forall₂ (· = ·) (positions.map s.chart.item?) (xs.map some) :=
      List.forall₂_eq_eq_eq ▸ hpositions
    simpa using heq
  -- the items that fired are in the chart, or better ones, as long as consequences are merged
  refine (foldlM_induction (P := fun u => Grows settings s u ∧
    IsSupported schema settings.policy Holds u.chart) hfold ⟨.refl, hs⟩ ?_).2
  rintro u y v hy ⟨hgrows, hu⟩ hv
  have hgrows' : Grows settings s v := hgrows.tail ⟨y, _, hv⟩
  refine ⟨hgrows', ?_⟩
  have hconsistent' := (hgrows.consistent_and_evolves hconsistent).1
  rcases State.merge_cases hpolicy hconsistent' hv with ⟨i, hputs, -⟩ | ⟨rfl, -⟩
  · refine hu.of_puts hputs (State.improves_of_merge hpolicy hconsistent' hv)
      (hholds.of_fire rule hrule xs f hall hf y hy)
      (Or.inr ⟨rule, hrule, positions, xs, f, hnodup, hall, hf, hy, rfl, hitems.imp ?_⟩)
    exact fun i x hx => hgrows'.improves hpolicy hconsistent i x hx
  · exact hu

/-- At the end of a run that keeps the best derivations, items have the properties that axioms have
and rules preserve, and all entries are supported. -/
theorem isSupported_of_finalState (hpolicy : settings.policy ≠ .accumulate)
    (hholds : schema.Produces Holds) {fuel : ℕ} (h : finalState settings schema fuel = .ok t) :
    IsSupported schema settings.policy Holds t.chart := by
  refine finalState_induction (P := IsSupported schema settings.policy Holds)
    (fun i e he => ?_) (fun s name x t hx _ hs ht => ?_)
      (fun s rule positions t hrule hnodup hconsistent hs ht => ?_) h
  · simp [Chart.empty] at he
  · exact isSupported_of_seedItem hholds hx hs ht
  · exact isSupported_of_applyAt hpolicy hholds hrule hnodup hconsistent hs ht

end Supported

/-! ### Derivations that are still right -/

/-- Whether a derivation gives an entry what it has: it is by an axiom with the item, or by a rule
that concludes an item with the form and the weight from the antecedents as they are in the
chart. -/
def Reproduces (schema : Schema W) (c : Chart W) (e : Entry W) (d : Derivation) : Prop :=
  (d.antecedents = [] ∧ ∃ a ∈ schema.axioms, a.name = d.rule ∧ e.item ∈ a.items) ∨
  ∃ rule ∈ schema.rules, ∃ xs f, d.antecedents.mapM c.item? = some xs ∧ rule.fire? xs = some f ∧
    f.name = d.rule ∧ ∃ y ∈ f.items, y.form = e.item.form ∧ y.weight = e.item.weight

/-- Whether a rule concludes the same from all orders of items with different forms, and nothing
worse from better items. -/
structure IsMonotone (policy : Policy) (Holds : Item W → Prop) (rule : Rule W) : Prop where
  fire_perm : ∀ (xs ys : List (Item W)) (f : Firing W), (∀ x ∈ xs, Holds x) →
    (xs.map Item.form).Nodup → ys.Perm xs → rule.fire? xs = some f → rule.fire? ys = some f
  fire_improves : ∀ (xs ys : List (Item W)) (f : Firing W), (∀ x ∈ xs, Holds x) →
    (∀ y ∈ ys, Holds y) → List.Forall₂ policy.Improves xs ys → rule.fire? xs = some f →
      ∃ f', rule.fire? ys = some f' ∧ f'.name = f.name ∧ ∀ x ∈ f.items, ∃ y ∈ f'.items,
        y.form = x.form ∧ (y.weight = x.weight ∨ policy.prefers y.weight x.weight = true)

/-- At the end of a run that keeps the best derivations by monotone rules, every entry has one
derivation, and this gives what the entry has from the antecedents as they are at the end. -/
theorem reproduces_of_finalState [OrderedWeight W] {Holds : Item W → Prop}
    (hpolicy : settings.policy ≠ .accumulate) (hholds : schema.Produces Holds)
    (hrules : ∀ rule ∈ schema.rules, IsMonotone settings.policy Holds rule) {fuel : ℕ}
    (h : finalState settings schema fuel = .ok t) {i : ℕ} {e : Entry W}
    (he : t.chart.entries[i]? = some e) :
    ∃ d, e.derivations = [d] ∧ Reproduces schema t.chart e d := by
  have hsupported := isSupported_of_finalState hpolicy hholds h
  have hindexed := (consistent_of_finalState h).1.indexed
  have hmem : e.item ∈ t.chart.items := ⟨i, Chart.item?_eq_some_iff.2 ⟨e, he, rfl⟩⟩
  rcases (hsupported i e he).2 with ⟨a, ha, hitem, hd⟩ |
    ⟨rule, hrule, positions, xs, f, hnodup, hxs, hf, hitem, hd, hall⟩
  · exact ⟨_, hd, Or.inl ⟨rfl, a, ha, rfl, hitem⟩⟩
  obtain ⟨hperm, himproves⟩ := hrules rule hrule
  -- the antecedents as they are at the end
  obtain ⟨ys, hys, hxys⟩ : ∃ ys, positions.map t.chart.item? = ys.map some ∧
      List.Forall₂ settings.policy.Improves xs ys := by
    clear hf hd hnodup hxs
    induction hall with
    | nil => exact ⟨[], rfl, .nil⟩
    | cons hx _ ih =>
        obtain ⟨y, hy, hxy⟩ := hx
        obtain ⟨ys, hys, hxys⟩ := ih
        exact ⟨y :: ys, by rw [List.map_cons, hy, hys, List.map_cons], .cons hxy hxys⟩
  have hitems := Chart.mem_items_of_map hys
  have hforms := hindexed.nodup_forms hnodup hys
  have hholds' : ∀ y ∈ ys, Holds y := by
    intro y hy
    obtain ⟨j, hj⟩ := hitems y hy
    obtain ⟨e', he', rfl⟩ := Chart.item?_eq_some_iff.1 hj
    exact (hsupported j e' he').1
  obtain ⟨f', hf', hname, hconclude⟩ := himproves xs ys f hxs hholds' hxys hf
  obtain ⟨y, hy, hyform, hyweight⟩ := hconclude e.item hitem
  -- what the rule concludes from them now is not preferred to the item that there is
  obtain ⟨ws, hws, hsettled⟩ := settles_of_finalState hpolicy h hrule
    (Rule.fire?_eq_some.1 hf').1 hitems hforms
  obtain ⟨z, hz, hzform, hworse⟩ := hsettled f' (hperm ys ws f' hholds' hforms hws hf') y hy
  obtain rfl := hindexed.eq_of_items hz hmem (hzform.trans hyform)
  have hweight : y.weight = e.item.weight :=
    hyweight.resolve_right fun hbetter => by simp [hworse] at hbetter
  obtain ⟨zs, hzs⟩ : ∃ zs : List (Item W), positions.mergeSort.map t.chart.item? = zs.map some :=
    Chart.exists_items fun j hj => Chart.lt_size_of_mapM hys j
      ((List.mergeSort_perm positions (· ≤ ·)).subset hj)
  have hsorted : zs.Perm ys := by
    rw [← List.map_perm_map_iff (Option.some_injective _), ← hzs, ← hys]
    exact (List.mergeSort_perm positions (· ≤ ·)).map _
  exact ⟨_, hd, Or.inr ⟨rule, hrule, zs, f', mapM_eq_some_iff.2 hzs,
    hperm ys zs f' hholds' hforms hsorted hf', hname, y, hy, hyform, hweight⟩⟩

end Deduction

end DeductiveParsing
