/-
The beginning of a run that keeps only the best derivations.

* `HoldsInOrder`: axioms with different forms are put into the chart in their order, and wait in
  that order;
* `exists_applyAt_of_finalState`: the first rule is first tried on the first two axioms;
* `mem_items_of_first_firing`: what it concludes is in the chart at the end, if nothing is preferred
  to it.
-/
import DeductiveParsing.Proofs.Deduction.Replacement

namespace DeductiveParsing

variable {W : Type}

namespace Deduction

variable {settings : Settings} {schema : Schema W} {s t : State W} {items : List (String × Item W)}

/-! ### Axioms -/

/-- Whether a state has the items of axioms in their order and no others, and all wait in that
order. -/
structure HoldsInOrder (items : List (String × Item W)) (s : State W) : Prop where
  consistent : s.Consistent
  size_eq : s.chart.size = items.length
  item?_eq : ∀ i, s.chart.item? i = (items[i]?).map Prod.snd
  agenda_eq : s.agenda.toList = List.range items.length

lemma holdsInOrder_empty : HoldsInOrder [] (State.empty : State W) where
  consistent := State.consistent_empty
  size_eq := rfl
  item?_eq i := by simp [State.empty, Chart.item?, Chart.empty]
  agenda_eq := rfl

/-- The item of an axiom with a new form is put behind the others. -/
lemma HoldsInOrder.seedItem {a : String × Item W} (hs : HoldsInOrder items s)
    (hnew : ∀ b ∈ items, b.2.form ≠ a.2.form) (h : seedItem settings a.1 s a.2 = .ok t) :
    HoldsInOrder (items ++ [a]) t := by
  rcases MergeStep.of_seedItem h with ⟨hnone, hstep⟩ | ⟨⟨i, hi⟩, -⟩
  · simp only [Deduction.seedItem, hnone] at h
    have hwait : s.chart.size ∉ s.agenda.toList := fun hmem =>
      (hs.consistent.waiting_lt _ hmem).false
    have hconsistent := hstep.consistent hs.consistent
    obtain rfl := State.insert_eq_ok h
    refine ⟨hconsistent, ?_, fun i => ?_, ?_⟩
    · simp [State.requeue, Chart.size, Chart.push, ← hs.size_eq]
    · rw [State.requeue, Chart.item?_push, hs.size_eq, hs.item?_eq, List.getElem?_append]
      rcases lt_trichotomy i items.length with hlt | rfl | hgt
      · rw [if_neg hlt.ne, if_pos hlt]
      · simp
      · rw [if_neg hgt.ne', if_neg hgt.not_gt, List.getElem?_eq_none hgt.le,
          List.getElem?_eq_none (Nat.sub_pos_of_lt hgt)]
    · rw [State.requeue, Agenda.toList_add hs.consistent.agenda, if_neg hwait, hs.agenda_eq,
        hs.size_eq, List.length_append, List.length_singleton, List.range_succ]
  · -- an item that is there has another form
    obtain ⟨y, hy, hform⟩ := Option.map_eq_some_iff.1 (hs.consistent.indexed.position?_eq_some.1 hi)
    rw [hs.item?_eq] at hy
    obtain ⟨b, hb, rfl⟩ := Option.map_eq_some_iff.1 hy
    exact absurd hform (hnew b (List.mem_of_getElem? hb))

lemma holdsInOrder_seedItems {l : List (String × Item W)} (hs : HoldsInOrder items s)
    (hnodup : ((items ++ l).map fun a => a.2.form).Nodup)
    (h : l.foldlM (fun s a => Deduction.seedItem settings a.1 s a.2) s = .ok t) :
    HoldsInOrder (items ++ l) t := by
  induction l generalizing items s with
  | nil =>
      rw [← Except.ok.inj h, List.append_nil]
      exact hs
  | cons a l ih =>
      obtain ⟨u, hu, hrest⟩ := bind_eq_ok.1 (List.foldlM_cons.symm.trans h)
      have hnew : ∀ b ∈ items, b.2.form ≠ a.2.form := by
        rw [List.map_append, List.nodup_append] at hnodup
        exact fun b hb => hnodup.2.2 _ (List.mem_map_of_mem hb) _ (by simp)
      rw [List.append_cons items a l] at hnodup ⊢
      exact ih (hs.seedItem hnew hu) hnodup hrest

/-- Axioms with different forms are put into the chart in their order, and wait in that order. -/
lemma holdsInOrder_of_seed (hnodup : (schema.axiomItems.map fun a => a.2.form).Nodup)
    (h : seed settings schema = .ok s) : HoldsInOrder schema.axiomItems s := by
  rw [seed_eq] at h
  exact holdsInOrder_seedItems holdsInOrder_empty hnodup h

/-! ### The first expansion -/

variable [Weight W]

/-- If something waits, a run goes on by expanding the first position. -/
lemma exists_expand_of_drain {fuel i : ℕ} {rest : List ℕ} (hs : s.Consistent)
    (hwait : s.agenda.toList = i :: rest) (h : drain settings schema fuel s = .ok t) :
    ∃ agenda u n, (⟨s.chart, agenda⟩ : State W).Consistent ∧
      State.expand settings schema i ⟨s.chart, agenda⟩ = .ok u ∧
        drain settings schema n u = .ok t := by
  have hnext : s.agenda.next? ≠ none := fun hnone => by
    simp [Agenda.toList_of_next?_eq_none hnone] at hwait
  cases fuel with
  | zero =>
      rw [drain] at h
      split at h
      · exact absurd ‹_› hnext
      · cases h
  | succ fuel =>
      rw [drain] at h
      split at h
      · exact absurd ‹_› hnext
      · rename_i first agenda hfirst
        obtain ⟨rfl, -⟩ := List.cons.inj ((Agenda.toList_of_next? hfirst).symm.trans hwait)
        split at h
        · exact ⟨agenda, _, fuel, hs.pop hfirst, ‹_›, h⟩
        · cases h

/-- What is in the chart at some time is there at the end, or something better. -/
lemma improves_of_drain [OrderedWeight W] (hpolicy : settings.policy ≠ .accumulate) {fuel : ℕ}
    (hs : s.Consistent) (h : drain settings schema fuel s = .ok t) :
    s.chart.Improves settings.policy t.chart := by
  refine (drain_induction (P := fun u => u.Consistent ∧ s.chart.Improves settings.policy u.chart) h
    ⟨hs, .refl _ _⟩ ?_).1.2
  rintro u first agenda v ⟨hu, himproves⟩ hnext hv
  have hgrows : Grows settings ⟨u.chart, agenda⟩ v := .of_expand hv
  have hpop := hu.pop hnext
  have himproves' := hgrows.improves hpolicy hpop
  exact ⟨(hgrows.consistent_and_evolves hpop).1, himproves.trans himproves'⟩

/-- The first choice of a position besides the first one is the next. -/
lemma otherPositions_one (n : ℕ) : ∃ rest, State.otherPositions (n + 2) 0 1 = [1] :: rest := by
  have hfilter : (List.range (n + 2)).filter (· ≠ 0) =
      1 :: (List.range n).map fun i => i + 2 := by
    rw [List.range_succ_eq_map, List.filter_cons_of_neg (by simp), List.range_succ_eq_map]
    simp [List.filter_eq_self.2]
  rw [State.otherPositions, if_neg one_ne_zero, hfilter, Choice.selections, if_neg (by simp)]
  generalize (1 :: (List.range n).map fun i => i + 2).length - 1 = spare
  cases spare <;> simp [Choice.selectionsWithin]

/-- Behind the axioms, the first rule is first tried on the items of the first two. -/
lemma exists_applyAt_of_finalState [OrderedWeight W] (hpolicy : settings.policy ≠ .accumulate)
    {fuel : ℕ} (h : finalState settings schema fuel = .ok t) {a b : String × Item W}
    {rest : List (String × Item W)} (haxioms : schema.axiomItems = a :: b :: rest)
    (hnodup : (schema.axiomItems.map fun a => a.2.form).Nodup) {rule : Rule W}
    {rules : List (Rule W)} (hrules : schema.rules = rule :: rules) (harity : rule.arity = 2) :
    ∃ s u : State W, s.Consistent ∧ s.chart.size = schema.axiomItems.length ∧
      (∀ i, s.chart.item? i = (schema.axiomItems[i]?).map Prod.snd) ∧
        s.applyAt settings rule [0, 1] = .ok u ∧ u.chart.Improves settings.policy t.chart := by
  obtain ⟨s, hseed, hdrain⟩ := finalState_eq_ok h
  have hs := holdsInOrder_of_seed hnodup hseed
  have hwait : s.agenda.toList = 0 :: (List.range (rest.length + 1)).map Nat.succ := by
    rw [hs.agenda_eq, haxioms]
    exact List.range_succ_eq_map
  obtain ⟨agenda, v, n, hpop, hexpand, hdrain⟩ := exists_expand_of_drain hs.consistent hwait hdrain
  rw [State.expand, hrules, List.foldlM_cons] at hexpand
  obtain ⟨u', hrule, hrest⟩ := bind_eq_ok.1 hexpand
  simp only [State.applyRule, harity] at hrule
  obtain ⟨others, hothers⟩ := otherPositions_one rest.length
  have hsize : s.chart.size = rest.length + 2 := by rw [hs.size_eq, haxioms]; rfl
  rw [hsize, hothers, List.foldlM_cons] at hrule
  obtain ⟨u, happly, hmore⟩ := bind_eq_ok.1 hrule
  refine ⟨⟨s.chart, agenda⟩, u, hpop, hs.size_eq, hs.item?_eq, happly, ?_⟩
  have hgrows : Grows settings u v := (Grows.of_foldlM hmore fun _ _ _ hx => .of_applyAt hx).trans
    (Grows.of_foldlM hrest fun _ _ _ hx => .of_applyRule hx)
  have hconsistent := ((Grows.of_applyAt happly).consistent_and_evolves hpop).1
  exact (hgrows.improves hpolicy hconsistent).trans (improves_of_drain hpolicy
    (hgrows.consistent_and_evolves hconsistent).1 hdrain)

/-- What the first rule concludes from the items of the first two axioms is in the chart at the end,
if no weight is preferred to its own. -/
theorem mem_items_of_first_firing [OrderedWeight W] (hpolicy : settings.policy ≠ .accumulate)
    {fuel : ℕ} (h : finalState settings schema fuel = .ok t) {a b : String × Item W}
    {rest : List (String × Item W)} (haxioms : schema.axiomItems = a :: b :: rest)
    (hnodup : (schema.axiomItems.map fun a => a.2.form).Nodup) {rule : Rule W}
    {rules : List (Rule W)} (hrules : schema.rules = rule :: rules) (harity : rule.arity = 2)
    {f : Firing W} (hf : rule.fire? [a.2, b.2] = some f) {y : Item W} (hitems : f.items = [y])
    (hnew : ∀ c ∈ schema.axiomItems, c.2.form ≠ y.form)
    (hfinal : ∀ w, settings.policy.prefers w y.weight = false) : y ∈ t.chart.items := by
  obtain ⟨s, u, hs, -, hitem, happly, himproves⟩ :=
    exists_applyAt_of_finalState hpolicy h haxioms hnodup hrules harity
  have hxs : [0, 1].mapM s.chart.item? = some [a.2, b.2] := by
    rw [mapM_eq_some_iff]
    simp [hitem, haxioms]
  rcases State.applyAt_cases happly with ⟨hnone, -⟩ | ⟨xs, f', hxs', hf', hfold⟩
  · simp [hxs, hf] at hnone
  obtain rfl := Option.some.inj (hxs.symm.trans hxs')
  obtain rfl := Option.some.inj (hf.symm.trans hf')
  rw [hitems, List.foldlM_cons] at hfold
  obtain ⟨v, hmerge, hv⟩ := bind_eq_ok.1 hfold
  obtain rfl := Except.ok.inj hv
  -- it is new, so it is put into the chart, and nothing takes its place
  rcases State.merge_cases hpolicy hs hmerge with ⟨i, hputs, -⟩ | ⟨-, i, z, hz, hform, -⟩
  · obtain ⟨z, hz, -, rfl | hprefers⟩ := himproves i y (by rw [hputs.item?_eq, if_pos rfl])
    · exact ⟨i, hz⟩
    · rw [hfinal] at hprefers
      cases hprefers
  · rw [hitem] at hz
    obtain ⟨c, hc, rfl⟩ := Option.map_eq_some_iff.1 hz
    exact absurd hform (hnew c (List.mem_of_getElem? hc))

end Deduction

end DeductiveParsing
