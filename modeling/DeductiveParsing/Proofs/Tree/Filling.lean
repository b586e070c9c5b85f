/-
Trees that arise when other trees take the places of all open leaves.

* `Tree.Fills`: trees, the trees in the places of their open leaves, and what arises;
* `Fills.frontier_eq`: the labels of the trees in these places are the frontier;
* `Fills.eq_of_leaves`: leaves in the places of leaves change nothing;
* `Fills.Substitutes`: one of the trees takes the place of a leaf in the row;
* `Fills.exists_substituteLeftmost?`: one of the trees may be built up from its root first.
-/
import DeductiveParsing.Proofs.Tree.Substitution

namespace DeductiveParsing.Tree

/-- Trees, one tree for each of their open leaves from left to right, and the trees that arise when
these take the places of the leaves. Every other leaf is missing: there are no trees with leaves
that are closed. -/
inductive Fills : List Tree → List Tree → List Tree → Prop
  | nil : Fills [] [] []
  | leaf {t u : Tree} {ts us filled : List Tree} (hopen : t.isOpen = true)
      (hlabel : u.label = t.label) (h : Fills ts us filled) :
      Fills (t :: ts) (u :: us) (u :: filled)
  | node {label : String} {foot : Bool} {cs ds ts us vs filled : List Tree} (hcs : cs ≠ [])
      (hinner : Fills cs us ds) (h : Fills ts vs filled) :
      Fills (⟨label, foot, cs⟩ :: ts) (us ++ vs) (⟨label, foot, ds⟩ :: filled)

namespace Fills

variable {t u base : Tree} {ts ts' us us' vs filled filled' cs : List Tree} {b : String}

lemma append (h : Fills ts us filled) (h' : Fills ts' us' filled') :
    Fills (ts ++ ts') (us ++ us') (filled ++ filled') := by
  induction h with
  | nil => exact h'
  | leaf hopen hlabel _ ih => exact .leaf hopen hlabel ih
  | node hcs hinner _ _ ih =>
      rw [List.append_assoc]
      exact .node hcs hinner ih

/-- What fills the children fills a node over them. -/
lemma singleton {label : String} {foot : Bool} {ds : List Tree} (hcs : cs ≠ [])
    (h : Fills cs us ds) : Fills [⟨label, foot, cs⟩] us [⟨label, foot, ds⟩] := by
  rw [← List.append_nil us]
  exact .node hcs h .nil

/-- Trees that fill open leaves. -/
lemma of_leaves (hopen : ∀ t ∈ ts, t.isOpen = true)
    (hlabels : us.map label = ts.map label) : Fills ts us us := by
  induction ts generalizing us with
  | nil =>
      obtain rfl : us = [] := List.map_eq_nil_iff.1 hlabels
      exact .nil
  | cons t ts ih =>
      cases us with
      | nil => simp at hlabels
      | cons u us =>
          obtain ⟨hlabel, hlabels⟩ := List.cons.inj hlabels
          exact .leaf (hopen t List.mem_cons_self) hlabel
            (ih (fun v hv => hopen v (List.mem_cons_of_mem _ hv)) hlabels)

/-- The frontier consists of the labels of the trees that fill it. -/
lemma frontier_eq (h : Fills ts us filled) :
    ts.flatMap frontier = us.map fun u => some u.label := by
  induction h with
  | nil => rfl
  | leaf hopen hlabel _ ih =>
      rw [List.flatMap_cons, frontier_of_isOpen hopen, ih, List.map_cons, hlabel]
      rfl
  | @node label foot cs ds ts us vs filled hcs _ _ ihcs ih =>
      rw [List.flatMap_cons, frontier_of_children (t := ⟨label, foot, cs⟩) hcs, ihcs, ih,
        List.map_append]

/-- Leaves in the places of leaves change nothing. -/
lemma eq_of_leaves (h : Fills ts us filled) (hus : ∀ u ∈ us, u = .leaf u.label) : filled = ts := by
  induction h with
  | nil => rfl
  | @leaf t u ts us filled hopen hlabel _ ih =>
      obtain ⟨hleaf, hfoot, -⟩ := isOpen_iff.1 hopen
      obtain ⟨label, foot, children⟩ := t
      obtain rfl : children = [] := hleaf
      obtain rfl : foot = false := hfoot
      rw [ih fun v hv => hus v (List.mem_cons_of_mem _ hv), hus u List.mem_cons_self, hlabel]
      rfl
  | node _ _ _ ihcs ih =>
      rw [ihcs fun u hu => hus u (List.mem_append_left _ hu),
        ih fun u hu => hus u (List.mem_append_right _ hu)]

/-- Whether a tree is substituted in the first one of a row that has an open leaf for it, and the row
that arises is filled. -/
def Substitutes (base : Tree) (ts us filled : List Tree) : Prop :=
  ∃ before c c' behind, ts = before ++ c :: behind ∧
    (∀ d ∈ before, some base.label ∉ d.frontier) ∧ c.substituteLeftmost? base = some c' ∧
      Fills (before ++ c' :: behind) us filled

/-- A tree before the row is passed over, if it has no open leaf for the other one. -/
lemma Substitutes.cons {filled₁ : Tree} (h : Substitutes base ts us filled)
    (ht : Fills [t] vs [filled₁]) (hvs : ∀ v ∈ vs, v.label ≠ base.label) :
    Substitutes base (t :: ts) (vs ++ us) (filled₁ :: filled) := by
  obtain ⟨before, c, c', behind, rfl, hbefore, hsub, hfills⟩ := h
  refine ⟨t :: before, c, c', behind, rfl, List.forall_mem_cons.2 ⟨?_, hbefore⟩, hsub,
    ht.append hfills⟩
  have hfrontier := ht.frontier_eq
  rw [List.flatMap_singleton] at hfrontier
  rw [hfrontier, List.mem_map]
  rintro ⟨v, hv, heq⟩
  exact hvs v hv (Option.some.inj heq)

/-- When the tree in the place of a leaf arises from filling a smaller tree, that may be substituted
first, if no leaf before has its label. -/
lemma substitutes (h : Fills ts (vs ++ u :: us) filled) (hu : Fills [base] cs [u])
    (hbase : base.label = u.label) (hvs : ∀ v ∈ vs, v.label ≠ base.label) :
    Substitutes base ts (vs ++ cs ++ us) filled := by
  obtain ⟨ws, hws⟩ : ∃ ws, ws = vs ++ u :: us := ⟨_, rfl⟩
  rw [← hws] at h
  induction h generalizing vs us with
  | nil => simp at hws
  | @leaf t w ts ws filled hopen hlabel h ih =>
      cases vs with
      | nil =>
          obtain ⟨rfl, rfl⟩ := List.cons.inj hws
          exact ⟨[], t, base, ts, rfl, fun _ hd => absurd hd List.not_mem_nil,
            substituteLeftmost?_leaf hopen (hlabel.symm.trans hbase.symm), hu.append h⟩
      | cons v vs =>
          obtain ⟨rfl, hws'⟩ := List.cons.inj hws
          obtain ⟨hv, hvs⟩ := List.forall_mem_cons.1 hvs
          exact (ih hvs hws').cons (.leaf hopen hlabel .nil) (by simpa using hv)
  | @node label foot ds ds' ts us₁ us₂ filled hds hinner h ihds ih =>
      -- the leaf is in a tree behind this one
      have hbehind : ∀ vs', vs = us₁ ++ vs' → us₂ = vs' ++ u :: us →
          Substitutes base (⟨label, foot, ds⟩ :: ts) (vs ++ cs ++ us)
            (⟨label, foot, ds'⟩ :: filled) := by
        rintro vs' rfl hus₂
        obtain ⟨hus₁, hvs'⟩ := List.forall_mem_append.1 hvs
        rw [List.append_assoc, List.append_assoc, ← List.append_assoc vs']
        exact (ih hvs' hus₂).cons (.singleton hds hinner) hus₁
      rcases List.append_eq_append_iff.1 hws with ⟨vs', hvs', hus₂⟩ | ⟨rest, hus₁, hrest⟩
      · exact hbehind vs' hvs' hus₂
      cases rest with
      | nil => exact hbehind [] (by simpa using hus₁.symm) (by simpa using hrest.symm)
      | cons u' rest =>
          -- it is in this tree
          obtain ⟨rfl, rfl⟩ := List.cons.inj hrest
          obtain ⟨before, c, c', behind, rfl, hbefore, hsub, hfills⟩ := ihds hvs hus₁
          have hfills' : Fills (⟨label, foot, before ++ c' :: behind⟩ :: ts)
              ((vs ++ cs ++ rest) ++ us₂) (⟨label, foot, ds'⟩ :: filled) :=
            .node (by simp) hfills h
          exact ⟨[], _, _, ts, rfl, fun _ hd => absurd hd List.not_mem_nil,
            substituteLeftmost?_child hbefore hsub, by simpa using hfills'⟩

/-- The same for one tree: the smaller tree takes the place of a leaf, and what the leaves of that
are filled with takes the place of what the leaf was filled with. -/
lemma exists_substituteLeftmost? {filled : Tree} (h : Fills [t] (vs ++ u :: us) [filled])
    (hu : Fills [base] cs [u]) (hbase : base.label = u.label)
    (hvs : ∀ v ∈ vs, v.label ≠ base.label) :
    ∃ t', t.substituteLeftmost? base = some t' ∧ Fills [t'] (vs ++ cs ++ us) [filled] := by
  obtain ⟨before, c, c', behind, ht, -, hsub, hfills⟩ := h.substitutes hu hbase hvs
  obtain ⟨rfl, rfl, rfl⟩ : before = [] ∧ c = t ∧ behind = [] := by
    simpa [List.append_eq_singleton_iff] using ht.symm
  exact ⟨c', hsub, hfills⟩

end Fills

end DeductiveParsing.Tree
