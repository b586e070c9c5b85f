/-
A run applies every rule to all choices of positions.

* `Chart.Justifies`: a rule fires on the items at given positions;
* `expand_induction`: an expansion merges only what is justified when it is merged;
* `Account`: a way of keeping account of consequences that have been merged;
* `Settled`: everything justified by positions none of which waits is on the account;
* `settled_expand`: this stays so when a position is taken off the agenda and expanded.
-/
import DeductiveParsing.Proofs.Deduction.Growth
import DeductiveParsing.Proofs.Inference.Orders

namespace DeductiveParsing

variable {W : Type}

/-! ### Positions -/

/-- Taking items at all positions succeeds if there is one at each. -/
lemma mapM_eq_some_iff {α β : Type} {f : α → Option β} {l : List α} {xs : List β} :
    l.mapM f = some xs ↔ l.map f = xs.map some := by
  induction l generalizing xs with
  | nil => cases xs <;> simp
  | cons a l ih =>
      simp only [List.mapM_cons, Option.pure_def, Option.bind_eq_bind, Option.bind_eq_some_iff,
        Option.some.injEq, List.map_cons, ih]
      constructor
      · rintro ⟨x, hx, xs, hxs, rfl⟩
        rw [hx, hxs, List.map_cons]
      · intro h
        cases xs with
        | nil => simp at h
        | cons x xs =>
            obtain ⟨hx, hxs⟩ := List.cons.inj h
            exact ⟨x, hx, xs, hxs, rfl⟩

/-- The choices of other positions are those in increasing order. -/
lemma Deduction.State.mem_otherPositions {size first needed : ℕ} {others : List ℕ} :
    others ∈ otherPositions size first needed ↔
      others.Pairwise (· < ·) ∧ (∀ i ∈ others, i < size ∧ i ≠ first) ∧ others.length = needed := by
  have hselect : others ∈ otherPositions size first needed ↔
      others.Sublist ((List.range size).filter (· ≠ first)) ∧ others.length = needed := by
    rw [otherPositions]
    split
    · rename_i hzero
      rw [hzero, List.mem_singleton, List.length_eq_zero_iff]
      exact ⟨fun h => ⟨h ▸ List.nil_sublist _, h⟩, fun h => h.2⟩
    · exact Choice.mem_selections
  have hsorted : ((List.range size).filter (· ≠ first)).Pairwise (· < ·) :=
    List.pairwise_lt_range.filter _
  rw [hselect, ← and_assoc]
  refine and_congr_left fun _ => ⟨fun h => ⟨hsorted.sublist h, fun i hi => ?_⟩, fun h => ?_⟩
  · simpa using h.subset hi
  · refine List.sublist_of_subperm_of_pairwise ?_ h.1 hsorted
    exact h.1.nodup.subperm fun i hi => by simpa using h.2 i hi

/-- Sorting different positions puts them into strictly increasing order. -/
lemma pairwise_lt_mergeSort {l : List ℕ} (h : l.Nodup) : l.mergeSort.Pairwise (· < ·) := by
  have hle : l.mergeSort.Pairwise (· ≤ ·) := by
    have htrans : ∀ a b c : ℕ, decide (a ≤ b) = true → decide (b ≤ c) = true →
        decide (a ≤ c) = true := by simpa using fun a b c => le_trans
    have htotal : ∀ a b : ℕ, (decide (a ≤ b) || decide (b ≤ a)) = true := by
      simpa using le_total
    simpa using List.pairwise_mergeSort htrans htotal l
  have hne : l.mergeSort.Pairwise (· ≠ ·) := (List.mergeSort_perm l _).nodup_iff.2 h
  exact (hle.and hne).imp fun hab => lt_of_le_of_ne hab.1 hab.2

/-- A list in strictly increasing order is what sorting makes of its orders. -/
lemma mergeSort_eq_of_perm {l sorted : List ℕ} (hsorted : sorted.Pairwise (· < ·))
    (h : l.Perm sorted) : l.mergeSort = sorted := by
  have hlt : l.mergeSort.Pairwise (· < ·) := pairwise_lt_mergeSort (h.nodup_iff.2 hsorted.nodup)
  exact List.Perm.eq_of_pairwise (fun a b _ _ hab hba => absurd hab hba.asymm) hlt hsorted
    ((List.mergeSort_perm l _).trans h)

/-! ### Items at positions -/

lemma Chart.map_lasting {policy : Policy} {c : Chart W} {positions : List ℕ} {xs : List (Item W)}
    (h : positions.map c.item? = xs.map some) :
    positions.map (fun i => (c.item? i).map policy.lasting) =
      (xs.map policy.lasting).map some := by
  simpa [Function.comp_def] using congrArg (List.map (Option.map policy.lasting)) h

/-- There are items at positions of a chart. -/
lemma Chart.exists_items {c : Chart W} {positions : List ℕ} (h : ∀ i ∈ positions, i < c.size) :
    ∃ xs : List (Item W), positions.map c.item? = xs.map some := by
  induction positions with
  | nil => exact ⟨[], rfl⟩
  | cons i positions ih =>
      obtain ⟨x, hx⟩ := lt_size_iff.1 (h i List.mem_cons_self)
      obtain ⟨xs, hxs⟩ := ih fun j hj => h j (List.mem_cons_of_mem _ hj)
      exact ⟨x :: xs, by rw [List.map_cons, List.map_cons, hx, hxs]⟩

lemma Chart.lt_size_of_mapM {c : Chart W} {positions : List ℕ} {xs : List (Item W)}
    (h : positions.map c.item? = xs.map some) : ∀ i ∈ positions, i < c.size := by
  intro i hi
  have hmem : c.item? i ∈ xs.map some := h ▸ List.mem_map_of_mem hi
  obtain ⟨x, -, hx⟩ := List.mem_map.1 hmem
  exact lt_size_iff.2 ⟨x, hx.symm⟩

/-! ### Justified consequences -/

variable [Weight W]

/-- Whether the conclusions of all rules are the same for antecedents with the same lasting
properties, in any order. -/
def Schema.IsStable (policy : Policy) (schema : Schema W) : Prop :=
  ∀ rule ∈ schema.rules, rule.IsUnambiguous ∧ (policy = .accumulate ∨ rule.IsUnweighted)

/-- A rule of the schema fires, under the name that a derivation gives, on the items at its
positions, and what it concludes has the given form. -/
def Chart.Justifies (c : Chart W) (schema : Schema W) (d : Derivation) (form : Form) : Prop :=
  d.antecedents.Pairwise (· < ·) ∧ ∃ rule ∈ schema.rules, ∃ xs f,
    d.antecedents.mapM c.item? = some xs ∧ rule.fire? xs = some f ∧ f.name = d.rule ∧
      form ∈ f.items.map Item.form

/-- In a stable schema what a rule concludes depends on what is lasting about its antecedents. -/
lemma Schema.IsStable.map_shape {policy : Policy} {schema : Schema W}
    (hstable : schema.IsStable policy) {rule : Rule W} (hrule : rule ∈ schema.rules)
    {xs ys : List (Item W)} (h : (xs.map policy.lasting).Perm (ys.map policy.lasting)) :
    (rule.fire? xs).map Firing.shape = (rule.fire? ys).map Firing.shape := by
  obtain ⟨hplain, haccumulate | hweight⟩ := hstable rule hrule
  · have hcore : ∀ zs : List (Item W), zs.map Item.core =
        (zs.map policy.lasting).map fun v => (v.1, v.2.getD none) := by
      intro zs
      simp [Policy.lasting, haccumulate, Item.core]
    refine Rule.map_shape_of_cores hplain ?_
    rw [hcore xs, hcore ys]
    exact h.map _
  · have hform : ∀ zs : List (Item W), zs.map Item.form =
        (zs.map policy.lasting).map Prod.fst := by
      intro zs
      rw [List.map_map]
      rfl
    refine Rule.map_shape_of_forms hweight hplain ?_
    rw [hform xs, hform ys]
    exact h.map _

/-- The same rule fires on other items with the same lasting properties, in any order. -/
lemma Schema.IsStable.exists_firing {policy : Policy} {schema : Schema W}
    (hstable : schema.IsStable policy) {rule : Rule W} (hrule : rule ∈ schema.rules)
    {c c' : Chart W} {positions positions' : List ℕ} {xs : List (Item W)} {f : Firing W}
    (hperm : positions.Perm positions')
    (hsame : ∀ i ∈ positions, (c'.item? i).map policy.lasting = (c.item? i).map policy.lasting)
    (hxs : positions.mapM c.item? = some xs) (hf : rule.fire? xs = some f) :
    ∃ ys g, positions'.mapM c'.item? = some ys ∧ rule.fire? ys = some g ∧ g.shape = f.shape := by
  rw [mapM_eq_some_iff] at hxs
  have hlt : ∀ i ∈ positions', i < c'.size := by
    intro i hi
    have hi' := hperm.symm.subset hi
    obtain ⟨x, hx⟩ := Chart.lt_size_iff.1 (Chart.lt_size_of_mapM hxs i hi')
    obtain ⟨y, hy, -⟩ := Option.map_eq_some_iff.1 ((hsame i hi').trans (congrArg _ hx))
    exact Chart.lt_size_iff.2 ⟨y, hy⟩
  obtain ⟨ys, hys⟩ := Chart.exists_items hlt
  have hlasting : (xs.map policy.lasting).Perm (ys.map policy.lasting) := by
    rw [← List.map_perm_map_iff (Option.some_injective _), ← Chart.map_lasting hxs,
      ← Chart.map_lasting hys, ← List.map_congr_left hsame]
    exact hperm.map _
  have hshape := hstable.map_shape hrule hlasting
  rw [hf] at hshape
  obtain ⟨g, hg, hgf⟩ := Option.map_eq_some_iff.1 hshape.symm
  exact ⟨ys, g, mapM_eq_some_iff.2 hys, hg, hgf⟩

/-- What is justified by positions whose items keep what is lasting stays justified. -/
lemma Chart.Justifies.of_lasting {policy : Policy} {schema : Schema W}
    (hstable : schema.IsStable policy) {c c' : Chart W} {d : Derivation} {form : Form}
    (hsame : ∀ i ∈ d.antecedents,
      (c'.item? i).map policy.lasting = (c.item? i).map policy.lasting)
    (h : c.Justifies schema d form) : c'.Justifies schema d form := by
  obtain ⟨hsorted, rule, hrule, xs, f, hxs, hf, hname, hform⟩ := h
  obtain ⟨ys, g, hys, hg, hshape⟩ :=
    hstable.exists_firing hrule (List.Perm.refl _) hsame hxs hf
  obtain ⟨hnames, hforms⟩ := Prod.mk.inj hshape
  exact ⟨hsorted, rule, hrule, ys, g, hys, hg, hnames.trans hname, hforms ▸ hform⟩

/-- The positions of a justification are positions of the chart. -/
lemma Chart.Justifies.lt_size {c : Chart W} {schema : Schema W} {d : Derivation} {form : Form}
    (h : c.Justifies schema d form) : ∀ i ∈ d.antecedents, i < c.size := by
  obtain ⟨-, -, -, xs, -, hxs, -⟩ := h
  exact lt_size_of_mapM (mapM_eq_some_iff.1 hxs)

namespace Deduction

variable {settings : Settings} {schema : Schema W} {s t : State W}

/-- What a state justifies, the states that it evolves into justify. -/
lemma State.Evolves.justifies (h : s.Evolves settings.policy t)
    (hstable : schema.IsStable settings.policy) {d : Derivation} {form : Form}
    (hd : s.chart.Justifies schema d form) : t.chart.Justifies schema d form :=
  hd.of_lasting hstable fun i hi => h.lasting i (hd.lt_size i hi)

/-! ### Only what is justified is merged -/

/-- What merges of justified consequences preserve is preserved by trying a rule. -/
lemma State.applyAt_induction {P : State W → Prop} (hstable : schema.IsStable settings.policy)
    (hmerge : ∀ s x d t, s.Consistent → P s → s.chart.Justifies schema d x.form →
      s.merge settings x d = .ok t → P t)
    {rule : Rule W} (hrule : rule ∈ schema.rules) {positions : List ℕ}
    (hnodup : positions.Nodup) (hs : s.Consistent) (h0 : P s)
    (h : s.applyAt settings rule positions = .ok t) : P t := by
  rcases applyAt_cases h with ⟨-, rfl⟩ | ⟨xs, f, hxs, hf, hfold⟩
  · exact h0
  -- the rule fires before the first consequence is merged, and it would still do so behind that
  have hjustified : ∀ u : State W, s.Evolves settings.policy u → ∀ x ∈ f.items,
      u.chart.Justifies schema ⟨f.name, positions.mergeSort⟩ x.form := by
    intro u hu x hx
    obtain ⟨ys, g, hys, hg, hshape⟩ := hstable.exists_firing hrule
      (List.mergeSort_perm positions _).symm (fun _ _ => rfl) hxs hf
    obtain ⟨hname, hforms⟩ := Prod.mk.inj hshape
    exact hu.justifies hstable ⟨pairwise_lt_mergeSort hnodup, rule, hrule, ys, g, hys, hg, hname,
      hforms ▸ List.mem_map_of_mem hx⟩
  refine (foldlM_induction (P := fun u => Grows settings s u ∧ P u) hfold ⟨.refl, h0⟩ ?_).2
  rintro u x v hx ⟨hgrows, hu⟩ hv
  obtain ⟨hconsistent, hevolves⟩ := hgrows.consistent_and_evolves hs
  exact ⟨hgrows.tail ⟨x, _, hv⟩, hmerge u x _ v hconsistent hu (hjustified u hevolves x hx) hv⟩

/-- What merges of justified consequences preserve is preserved by an expansion. -/
theorem expand_induction {P : State W → Prop} (hstable : schema.IsStable settings.policy)
    (hmerge : ∀ s x d t, s.Consistent → P s → s.chart.Justifies schema d x.form →
      s.merge settings x d = .ok t → P t)
    {first : ℕ} (hs : s.Consistent) (h0 : P s)
    (h : State.expand settings schema first s = .ok t) : P t := by
  refine (foldlM_induction (P := fun u => Grows settings s u ∧ P u) h ⟨.refl, h0⟩ ?_).2
  rintro u rule v hrule ⟨hgrows, hu⟩ hv
  refine ⟨hgrows.trans (Grows.of_applyRule hv), ?_⟩
  rw [State.applyRule] at hv
  split at hv
  · exact Except.ok.inj hv ▸ hu
  refine (foldlM_induction (P := fun u => Grows settings s u ∧ P u) hv ⟨hgrows, hu⟩ ?_).2
  rintro u' others v' hothers ⟨hgrows', hu'⟩ hv'
  refine ⟨hgrows'.trans (Grows.of_applyAt hv'), ?_⟩
  obtain ⟨hsorted, hother, -⟩ := State.mem_otherPositions.1 hothers
  have hnodup : (first :: others).Nodup :=
    List.nodup_cons.2 ⟨fun hfirst => (hother first hfirst).2 rfl, hsorted.nodup⟩
  exact State.applyAt_induction hstable hmerge hrule hnodup
    (hgrows'.consistent_and_evolves hs).1 hu' hv'

/-! ### All that is justified is merged -/

/-- A way of keeping account of the consequences that have been merged: what is merged comes on the
account, and nothing leaves it. -/
structure Account (W : Type) [Weight W] (settings : Settings) where
  Covers : Chart W → Derivation → Form → Prop
  of_merge : ∀ {s t : State W} {x : Item W} {d : Derivation}, s.Consistent →
    s.merge settings x d = .ok t → Covers t.chart d x.form
  mono : ∀ {s t : State W} {x : Item W} {d d' : Derivation} {form : Form}, s.Consistent →
    s.merge settings x d = .ok t → Covers s.chart d' form → Covers t.chart d' form

namespace Account

variable {account : Account W settings}

lemma covers_of_grows (hs : s.Consistent) (h : Grows settings s t) {d : Derivation} {form : Form}
    (hd : account.Covers s.chart d form) : account.Covers t.chart d form := by
  induction h with
  | refl => exact hd
  | tail hgrows hstep ih =>
      obtain ⟨x, d', hmerge⟩ := hstep
      exact account.mono (Grows.consistent_and_evolves hgrows hs).1 hmerge ih

/-- Trying a rule brings its consequences on the account. -/
lemma covers_of_applyAt {rule : Rule W} {positions : List ℕ} {xs : List (Item W)} {f : Firing W}
    (hs : s.Consistent) (h : s.applyAt settings rule positions = .ok t)
    (hxs : positions.mapM s.chart.item? = some xs) (hf : rule.fire? xs = some f) {form : Form}
    (hform : form ∈ f.items.map Item.form) :
    account.Covers t.chart ⟨f.name, positions.mergeSort⟩ form := by
  rcases State.applyAt_cases h with ⟨hnone, -⟩ | ⟨xs', f', hxs', hf', hfold⟩
  · simp [hxs, hf] at hnone
  obtain rfl : xs = xs' := Option.some.inj (hxs.symm.trans hxs')
  obtain rfl : f = f' := Option.some.inj (hf.symm.trans hf')
  obtain ⟨x, hx, rfl⟩ := List.mem_map.1 hform
  obtain ⟨before, behind, u, v, -, hbefore, hmerge, hbehind⟩ := exists_step_of_foldlM hfold hx
  have hu := ((Grows.of_merges hbefore).consistent_and_evolves hs).1
  have hv := (MergeStep.of_merge hmerge).consistent hu
  exact covers_of_grows hv (.of_merges hbehind) (account.of_merge hu hmerge)

/-- Expanding a position brings everything on the account that it justifies together with others. -/
lemma covers_of_expand {first : ℕ} (hstable : schema.IsStable settings.policy)
    (hs : s.Consistent) (h : State.expand settings schema first s = .ok t) {d : Derivation}
    {form : Form} (hd : s.chart.Justifies schema d form) (hfirst : first ∈ d.antecedents) :
    account.Covers t.chart d form := by
  have hlt := hd.lt_size
  obtain ⟨hsorted, rule, hrule, xs, f, hxs, hf, hname, hform⟩ := hd
  obtain ⟨_, _, u, v, -, hu, hrules, hv⟩ := exists_step_of_foldlM h hrule
  have hgrowsu : Grows settings s u := .of_foldlM hu fun _ _ _ hx => .of_applyRule hx
  have hgrowsv : Grows settings v t := .of_foldlM hv fun _ _ _ hx => .of_applyRule hx
  obtain ⟨hconsistent, hevolves⟩ := hgrowsu.consistent_and_evolves hs
  -- the other positions are among the choices
  have hlength : d.antecedents.length = rule.arity := by
    rw [← List.length_map (f := s.chart.item?), mapM_eq_some_iff.1 hxs, List.length_map]
    exact (Rule.fire?_eq_some.1 hf).1
  have hpos := rule.arity_pos
  have hperm : (first :: d.antecedents.erase first).Perm d.antecedents :=
    (List.perm_cons_erase hfirst).symm
  rw [State.applyRule] at hrules
  split at hrules
  · omega
  rename_i needed hneeded
  have hothers : d.antecedents.erase first ∈
      State.otherPositions u.chart.size first needed := by
    refine State.mem_otherPositions.2 ⟨hsorted.sublist List.erase_sublist, fun i hi => ?_, ?_⟩
    · obtain ⟨hne, hi⟩ := (List.Nodup.mem_erase_iff hsorted.nodup).1 hi
      exact ⟨(hlt i hi).trans_le hevolves.size_le, hne⟩
    · rw [List.length_erase_of_mem hfirst]
      omega
  obtain ⟨_, _, u', v', -, hu', hstep, hv'⟩ := exists_step_of_foldlM hrules hothers
  have hgrowsu' : Grows settings s u' :=
    hgrowsu.trans (Grows.of_foldlM hu' fun _ _ _ hx => .of_applyAt hx)
  obtain ⟨hconsistent', hevolves'⟩ := hgrowsu'.consistent_and_evolves hs
  -- the rule still fires when it is their turn
  obtain ⟨ys, g, hys, hg, hshape⟩ := hstable.exists_firing hrule hperm.symm
    (fun i hi => hevolves'.lasting i (hlt i hi)) hxs hf
  obtain ⟨hnames, hforms⟩ := Prod.mk.inj hshape
  have hcovers : account.Covers v'.chart d form := by
    have hname' : d = ⟨g.name, (first :: d.antecedents.erase first).mergeSort⟩ := by
      rw [mergeSort_eq_of_perm hsorted hperm, hnames, hname]
    rw [hname']
    exact covers_of_applyAt hconsistent' hstep hys hg (hforms ▸ hform)
  refine covers_of_grows ?_ ((Grows.of_foldlM hv' fun _ _ _ hx => .of_applyAt hx).trans hgrowsv)
    hcovers
  exact ((Grows.of_applyAt hstep).consistent_and_evolves hconsistent').1

end Account

/-- Everything justified by positions none of which waits is on the account. -/
def Settled (account : Account W settings) (schema : Schema W) (s : State W) : Prop :=
  ∀ d form, s.chart.Justifies schema d form → (∀ i ∈ d.antecedents, i ∉ s.agenda.toList) →
    account.Covers s.chart d form

/-- Expanding the next position settles what it justifies together with positions that have been
expanded before, and leaves settled what is. -/
theorem settled_expand {account : Account W settings} (hstable : schema.IsStable settings.policy)
    {first : ℕ} {agenda : Agenda} (hs : s.Consistent) (hsettled : Settled account schema s)
    (hnext : s.agenda.next? = some (first, agenda))
    (h : State.expand settings schema first ⟨s.chart, agenda⟩ = .ok t) :
    Settled account schema t := by
  intro d form hd hwaits
  have hpop := hs.pop hnext
  obtain ⟨-, hevolves⟩ := (Grows.of_expand h).consistent_and_evolves hpop
  -- new positions wait, so all are old
  have hlt : ∀ i ∈ d.antecedents, i < s.chart.size := by
    intro i hi
    by_contra hge
    exact hwaits i hi (hevolves.fresh_waits i (not_lt.1 hge) (hd.lt_size i hi))
  have hd' : s.chart.Justifies schema d form :=
    hd.of_lasting hstable fun i hi => (hevolves.lasting i (hlt i hi)).symm
  by_cases hfirst : first ∈ d.antecedents
  · exact Account.covers_of_expand hstable hpop h hd' hfirst
  · refine Account.covers_of_grows hpop (.of_expand h) (hsettled d form hd' fun i hi hwait => ?_)
    rw [Agenda.toList_of_next? hnext, List.mem_cons] at hwait
    rcases hwait with rfl | hwait
    · exact hfirst hi
    · exact hwaits i hi (hevolves.waits i hwait)

end Deduction

end DeductiveParsing
