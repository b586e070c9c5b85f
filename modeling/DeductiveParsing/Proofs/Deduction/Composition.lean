/-
Runs that put their trees together from trees of antecedents.

* `Chart.Carries`: which trees the items of a form carry;
* `Lineage`: a tree all of whose inner nodes are trees of items, no two on one path of the same
  form;
* `Lineage.avoid`: a form may be left out if it carries none of the subtrees;
* `Lineage.mem_shallow`: so a tree is not higher than there are forms;
* `Schema.Composes`: every child in a new tree is a leaf, a tree of an antecedent or a child in one;
* `exists_run_of_composes`: runs that compose their trees end, because a forest leaves out what
  would repeat a form on a path.
-/
import DeductiveParsing.Proofs.Deduction.Termination
import DeductiveParsing.Proofs.Tree.Size

namespace DeductiveParsing

variable {W : Type}

/-! ### Lineages -/

/-- Whether all inner nodes of a tree are trees that `R` assigns to forms, in such a way that no
form repeats on a path from the root and none of those to avoid occurs. -/
inductive Lineage (R : Form → Tree → Prop) : Finset Form → Form → Tree → Prop where
  | node {avoided : Finset Form} {form : Form} {t : Tree} (place : Tree → Form)
      (hform : form ∉ avoided) (hR : R form t)
      (hchildren : ∀ c ∈ t.children, c.children ≠ [] →
        Lineage R (insert form avoided) (place c) c) : Lineage R avoided form t

namespace Lineage

variable {R R' : Form → Tree → Prop} {avoided avoided' : Finset Form} {form form' : Form}
  {t u : Tree}

lemma mono (hR : ∀ form t, R form t → R' form t) (h : Lineage R avoided form t) :
    Lineage R' avoided form t := by
  induction h with
  | node place hform ht _ ih => exact .node place hform (hR _ _ ht) ih

lemma anti (h : Lineage R avoided form t) (hle : avoided' ⊆ avoided) :
    Lineage R avoided' form t := by
  induction h generalizing avoided' with
  | node place hform ht _ ih =>
      exact .node place (fun hmem => hform (hle hmem)) ht
        fun c hc hinner => ih c hc hinner (Finset.insert_subset_insert _ hle)

/-- A form that carries none of the subtrees may be avoided as well. -/
lemma avoid (h : Lineage R avoided form t) (hnone : ∀ u ∈ t.nodes.map Prod.snd, ¬R form' u) :
    Lineage R (insert form' avoided) form t := by
  induction h with
  | @node avoided form t place hform ht _ ih =>
      rw [Tree.map_snd_nodes] at hnone
      have hne : form ≠ form' := by
        rintro rfl
        exact hnone t List.mem_cons_self ht
      refine .node place (by simp [hne, hform]) ht fun c hc hinner => ?_
      rw [Finset.insert_comm]
      exact ih c hc hinner fun u hu =>
        hnone u (List.mem_cons_of_mem _ (List.mem_flatMap.2 ⟨c, hc, hu⟩))

/-- A tree is not higher than there are forms that need not be avoided. -/
lemma mem_shallow {labels : List String} {width : ℕ} {forms : Finset Form}
    (h : Lineage R avoided form t) (hforms : ∀ form t, R form t → form ∈ forms)
    (ht : t.Everywhere fun u => u.label ∈ labels ∧ u.children.length ≤ width) :
    t ∈ Tree.shallow labels width (forms \ avoided).card := by
  induction h with
  | @node avoided form t place hform hR _ ih =>
      obtain ⟨⟨hlabel, hwidth⟩, hchildren⟩ := Tree.everywhere_iff.1 ht
      have hmem : form ∈ forms \ avoided := Finset.mem_sdiff.2 ⟨hforms _ _ hR, hform⟩
      have herase : forms \ insert form avoided = (forms \ avoided).erase form :=
        Finset.sdiff_insert _ _ _
      rw [← Finset.card_erase_add_one hmem, ← herase]
      refine ⟨hlabel, hwidth, fun c hc => ?_⟩
      by_cases hleaf : c.children = []
      · exact Tree.leaf_mem_shallow (Tree.everywhere_iff.1 (hchildren c hc)).1.1 hleaf
      · exact ih c hc hleaf (hchildren c hc)

end Lineage

/-- Whether the inner children of a tree have lineages. -/
def IsComposed (R : Form → Tree → Prop) (t : Tree) : Prop :=
  ∀ c ∈ t.children, c.children ≠ [] → ∃ form, Lineage R ∅ form c

/-- A composed tree has a lineage from a form that carries it, if none of its proper subtrees was
among the trees of that form before. -/
lemma Lineage.of_isComposed {R R' : Form → Tree → Prop} {form : Form} {t : Tree}
    (ht : IsComposed R t) (hnone : ∀ u, t.hasProperSubtree u = true → ¬R form u)
    (hR : ∀ form t, R form t → R' form t) (hform : R' form t) : Lineage R' ∅ form t := by
  choose! place hplace using ht
  refine .node place (Finset.notMem_empty _) hform fun c hc hinner => ?_
  refine Lineage.mono hR ((hplace c hc hinner).avoid fun u hu => ?_)
  exact hnone u (Tree.hasProperSubtree_iff.2 ⟨c, hc, hu⟩)

/-! ### Composed trees -/

/-- Whether the item of a form carries a tree. -/
def Chart.Carries (c : Chart W) (form : Form) (t : Tree) : Prop :=
  ∃ x ∈ c.items, x.form = form ∧ t ∈ x.trees

lemma Chart.IsPart.carries {c c' : Chart W} (h : c.IsPart c') {form : Form} {t : Tree}
    (ht : c.Carries form t) : c'.Carries form t := by
  obtain ⟨x, hx, rfl, ht⟩ := ht
  obtain ⟨y, hy, hform, hle⟩ := h x hx
  exact ⟨y, hy, hform, hle ht⟩

/-- A schema all of whose trees are composed: the children in the trees of axioms are leaves, and
every child in a tree that a rule concludes is a leaf, a tree of an antecedent or a child in one.
There are finitely many forms and labels, and the number of children is bounded. -/
structure Schema.Composes [Weight W] (schema : Schema W) where
  Fits : Item W → Prop
  forms : Finset Form
  labels : List String
  width : ℕ
  preserves : schema.Preserves Fits
  form_mem : ∀ x, Fits x → x.form ∈ forms
  shape : ∀ x, Fits x → ∀ t ∈ x.trees,
    t.Everywhere fun u => u.label ∈ labels ∧ u.children.length ≤ width
  axiom_child : ∀ a ∈ schema.axioms, ∀ x ∈ a.items, ∀ t ∈ x.trees, ∀ c ∈ t.children,
    c.children = []
  fire_child : ∀ rule ∈ schema.rules, ∀ (xs : List (Item W)) (f : Firing W), (∀ x ∈ xs, Fits x) →
    rule.fire? xs = some f → ∀ y ∈ f.items, ∀ t ∈ y.trees, ∀ c ∈ t.children,
      c.children = [] ∨ ∃ x ∈ xs, ∃ u ∈ x.trees, c = u ∨ c ∈ u.children

namespace Schema.Composes

variable [Weight W] {schema : Schema W}

/-- What holds of the charts of a run: every tree has a lineage. -/
def Holds (h : schema.Composes) (c : Chart W) : Prop :=
  ∀ x ∈ c.items, h.Fits x ∧ ∀ t ∈ x.trees, Lineage c.Carries ∅ x.form t

/-- Merging composed trees leaves trees with lineages. -/
lemma holds_step (h : schema.Composes) {settings : Settings} {s t : Deduction.State W} {x : Item W}
    {d : Derivation} (hpolicy : settings.policy = .accumulate) (hs : s.Consistent)
    (hholds : h.Holds s.chart) (hx : h.Fits x)
    (htrees : ∀ u ∈ x.trees, IsComposed s.chart.Carries u)
    (hstep : Deduction.MergeStep settings s x d t) : h.Holds t.chart := by
  have hpart := (hstep.accrues hpolicy).isPart
  have hcarries : ∀ form u, s.chart.Carries form u → t.chart.Carries form u :=
    fun _ _ => hpart.carries
  intro y hy
  rcases hstep.mem_items hs hy with hold | ⟨rfl, hfresh⟩ | ⟨-, z, hz, hzx, rfl⟩
  · exact ⟨(hholds y hold).1, fun u hu => ((hholds y hold).2 u hu).mono hcarries⟩
  · refine ⟨hx, fun u hu => .of_isComposed (htrees u hu) ?_ hcarries ⟨y, hy, rfl, hu⟩⟩
    rintro v - ⟨z, hz, hzy, -⟩
    exact hfresh hpolicy z hz hzy
  · refine ⟨h.preserves.of_merge z x (hholds z hz).1 hx hzx, fun u hu => ?_⟩
    by_cases hold : u ∈ z.trees
    · exact ((hholds z hz).2 u hold).mono hcarries
    · obtain ⟨hnew, hout⟩ := Forest.excludes_eq_false_of_mem_merge hu hold
      refine .of_isComposed (htrees u hnew) ?_ hcarries ⟨_, hy, rfl, hu⟩
      rintro v hv ⟨z', hz', hform, hmem⟩
      obtain rfl : z' = z := hs.indexed.eq_of_items hz' hz hform
      rw [Forest.excludes_iff.2 (Or.inr ⟨v, hmem, hv⟩)] at hout
      cases hout

/-- Rules conclude composed trees from trees with lineages. -/
lemma isComposed_of_fire (h : schema.Composes) {c : Chart W} (hholds : h.Holds c) {rule : Rule W}
    (hrule : rule ∈ schema.rules) {xs : List (Item W)} {f : Firing W} (hxs : ∀ x ∈ xs, x ∈ c.items)
    (hf : rule.fire? xs = some f) :
    ∀ y ∈ f.items, ∀ t ∈ y.trees, IsComposed c.Carries t := by
  intro y hy t ht child hchild hinner
  rcases h.fire_child rule hrule xs f (fun x hx => (hholds x (hxs x hx)).1) hf y hy t ht child
    hchild with hleaf | ⟨x, hx, u, hu, hcases⟩
  · exact absurd hleaf hinner
  have hlineage := (hholds x (hxs x hx)).2 u hu
  rcases hcases with rfl | hmem
  · exact ⟨_, hlineage⟩
  · cases hlineage with
    | node place _ _ hchildren =>
        exact ⟨_, (hchildren child hmem hinner).anti (Finset.empty_subset _)⟩

/-- Composed trees limit the charts. -/
noncomputable def limits (h : schema.Composes) : schema.Limits where
  Holds := h.Holds
  Suits c x := h.Fits x ∧ ∀ t ∈ x.trees, IsComposed c.Carries t
  forms := h.forms
  trees := (Tree.finite_shallow h.labels h.width h.forms.card).toFinset
  holds_empty := by
    rintro x ⟨i, hi⟩
    simp at hi
  holds_step _ _ _ _ _ hpolicy hs hholds hx := h.holds_step hpolicy hs hholds hx.1 hx.2
  suits_axiom _ a ha x hx := ⟨h.preserves.of_axiom a ha x hx, fun t ht c hc hinner =>
    absurd (h.axiom_child a ha x hx t ht c hc) hinner⟩
  suits_fire c hholds rule hrule xs f hxs hf y hy :=
    ⟨h.preserves.of_fire rule hrule xs f (fun x hx => (hholds x (hxs x hx)).1) hf y hy,
      h.isComposed_of_fire hholds hrule hxs hf y hy⟩
  suits_mono c c' x hpart hx := ⟨hx.1, fun t ht child hchild hinner =>
    ((hx.2 t ht child hchild hinner).imp fun _ => .mono fun _ _ => hpart.carries)⟩
  form_mem c hholds x hx := h.form_mem x (hholds x hx).1
  tree_mem c hholds x hx t ht := by
    obtain ⟨hfits, hlineage⟩ := hholds x hx
    have hforms : ∀ form u, c.Carries form u → form ∈ h.forms := by
      rintro form u ⟨y, hy, rfl, -⟩
      exact h.form_mem y (hholds y hy).1
    have hshallow := (hlineage t ht).mem_shallow hforms (h.shape x hfits t ht)
    rw [Finset.sdiff_empty] at hshallow
    exact (Set.Finite.mem_toFinset _).2 hshallow

end Schema.Composes

/-- A run that composes its trees ends when all derivations are kept and the chart may grow without
a bound, although an item waits again each time its forest grows. -/
theorem Deduction.exists_run_of_composes [Weight W] {settings : Settings} {schema : Schema W}
    (hpolicy : settings.policy = .accumulate) (hlimit : settings.limit = none)
    (h : schema.Composes) : ∃ fuel o, run settings schema fuel = .ok o :=
  exists_run_of_limits hpolicy hlimit h.limits

end DeductiveParsing
