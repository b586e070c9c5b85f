/-
Trees of weighted grammars with one open node, which stands for words yet to be parsed.

* `Grammar.OpenParses`: trees for symbols in a row, one node of which is open, with the words on both
  sides of it and the productions of the other nodes;
* `OpenParses.expand`: the open node is given children, one of which is open instead;
* `OpenParses.cases_parent`: it is one of the roots, or it is the child of a node that is open in
  other trees with fewer productions;
* `OpenParses.cases_chomsky`: in Chomsky normal form it has one sibling on the left or on the right.
-/
import DeductiveParsing.Proofs.Weighted.Lengths

namespace DeductiveParsing.Weighted.Grammar

variable {W : Type} {g : Grammar W} {symbols : List Symbol} {ts cs : List Tree} {t : Tree}
  {name a : String} {u u' v v' w : List String} {ps qs : List (Production W)} {p : Production W}

/-- Trees for symbols in a row, one node of which is open: a leaf with a nonterminal `name`, below
which there is nothing. They spell one word on the left of it and one on the right, and consist of
the productions of all other nodes. -/
inductive OpenParses (g : Grammar W) (name : String) : List Symbol → List Tree → List String →
    List String → List (Production W) → Prop where
  | here {symbols : List Symbol} {ts : List Tree} {w : List String} {ps : List (Production W)}
      (hts : g.Parses symbols ts w ps) :
      OpenParses g name (.nonterminal name :: symbols) (.leaf name :: ts) [] w ps
  | leaf (a : String) {symbols : List Symbol} {ts : List Tree} {u v : List String}
      {ps : List (Production W)} (hts : OpenParses g name symbols ts u v ps) :
      OpenParses g name (.terminal a :: symbols) (.leaf a :: ts) (a :: u) v ps
  | inside {p : Production W} {symbols : List Symbol} {cs ts : List Tree} {u v w : List String}
      {ps qs : List (Production W)} (hp : p ∈ g.productions)
      (hcs : OpenParses g name p.production.rhs cs u v ps) (hts : g.Parses symbols ts w qs) :
      OpenParses g name (.nonterminal p.production.lhs :: symbols)
        (.above p.production.lhs cs :: ts) u (v ++ w) (p :: (ps ++ qs))
  | behind {p : Production W} {symbols : List Symbol} {cs ts : List Tree} {u v w : List String}
      {ps qs : List (Production W)} (hp : p ∈ g.productions)
      (hcs : g.Parses p.production.rhs cs w ps) (hts : OpenParses g name symbols ts u v qs) :
      OpenParses g name (.nonterminal p.production.lhs :: symbols)
        (.above p.production.lhs cs :: ts) (w ++ u) v (p :: (ps ++ qs))

namespace OpenParses

lemma length_eq (h : g.OpenParses name symbols ts u v ps) : ts.length = symbols.length := by
  induction h with
  | here hts => exact congrArg Nat.succ hts.spells.length_eq
  | leaf _ _ ih => exact congrArg Nat.succ ih
  | inside _ _ hts _ => exact congrArg Nat.succ hts.spells.length_eq
  | behind _ _ _ ih => exact congrArg Nat.succ ih

/-- The open node is the whole tree. -/
lemma single (g : Grammar W) (name : String) :
    g.OpenParses name [.nonterminal name] [.leaf name] [] [] [] := .here .nil

/-- The open node is given children, one of which is open instead. -/
theorem expand (h : g.OpenParses p.production.lhs symbols ts u v ps) (hp : p ∈ g.productions)
    (hcs : g.OpenParses name p.production.rhs cs u' v' qs) :
    ∃ us rs, g.OpenParses name symbols us (u ++ u') (v' ++ v) rs ∧ rs.Perm (ps ++ p :: qs) := by
  induction h with
  | here hts =>
      refine ⟨_, _, .inside hp hcs hts, ?_⟩
      exact (List.perm_append_comm.cons p).trans List.perm_middle.symm
  | leaf a _ ih =>
      obtain ⟨us, rs, hus, hperm⟩ := ih
      exact ⟨_, rs, .leaf a hus, hperm⟩
  | @inside q symbols ds ts u v w ps ps' hq _ hts ih =>
      obtain ⟨us, rs, hus, hperm⟩ := ih
      have hopen := OpenParses.inside hq hus hts
      rw [List.append_assoc] at hopen
      refine ⟨_, _, hopen, ?_⟩
      rw [List.cons_append, List.append_assoc]
      refine ((hperm.append_right ps').trans ?_).cons q
      rw [List.append_assoc]
      exact List.perm_append_comm.append_left ps
  | @behind q symbols ds ts u v w ps ps' hq hds _ ih =>
      obtain ⟨us, rs, hus, hperm⟩ := ih
      have hopen := OpenParses.behind hq hds hus
      rw [← List.append_assoc] at hopen
      refine ⟨_, _, hopen, ?_⟩
      rw [List.cons_append, List.append_assoc]
      exact (hperm.append_left ps).cons q

end OpenParses

/-- Whether the open node is one of the roots of trees for symbols in a row, with the words and the
productions of the trees on both sides of it. -/
def Borders (g : Grammar W) (name : String) (symbols : List Symbol) (u v : List String)
    (ps : List (Production W)) : Prop :=
  ∃ before after ts us qs rs, symbols = before ++ .nonterminal name :: after ∧
    g.Parses before ts u qs ∧ g.Parses after us v rs ∧ ps = qs ++ rs

/-- Whether the open node is the child of a node that is open in other trees. -/
def ExpandsTo (g : Grammar W) (name : String) (symbols : List Symbol) (u v : List String)
    (ps : List (Production W)) : Prop :=
  ∃ p ∈ g.productions, ∃ ts u₁ u₂ v₁ v₂ qs rs, g.OpenParses p.production.lhs symbols ts u₁ v₁ qs ∧
    g.Borders name p.production.rhs u₂ v₂ rs ∧ u = u₁ ++ u₂ ∧ v = v₂ ++ v₁ ∧
      ps.Perm (qs ++ p :: rs)

namespace OpenParses

/-- The open node is one of the roots, or it is the child of a node that is open in other trees. -/
theorem cases_parent (h : g.OpenParses name symbols ts u v ps) :
    g.Borders name symbols u v ps ∨ g.ExpandsTo name symbols u v ps := by
  induction h with
  | @here symbols ts w ps hts => exact Or.inl ⟨[], symbols, [], ts, [], ps, rfl, .nil, hts, rfl⟩
  | leaf a _ ih =>
      rcases ih with ⟨before, after, ts, us, qs, rs, rfl, hts, hus, rfl⟩ |
        ⟨p, hp, ts, u₁, u₂, v₁, v₂, qs, rs, hopen, hborders, rfl, rfl, hperm⟩
      · exact Or.inl ⟨.terminal a :: before, after, _, us, qs, rs, rfl, .leaf a hts, hus, rfl⟩
      · exact Or.inr ⟨p, hp, _, a :: u₁, u₂, v₁, v₂, qs, rs, .leaf a hopen, hborders, rfl, rfl,
          hperm⟩
  | @inside q symbols cs ts u v w ps ps' hq _ hts ih =>
      rcases ih with hborders |
        ⟨p, hp, us, u₁, u₂, v₁, v₂, qs, rs, hopen, hborders, rfl, rfl, hperm⟩
      · -- the parent is the first root
        refine Or.inr ⟨q, hq, _, [], u, w, v, ps', ps, .here hts, hborders, rfl, rfl, ?_⟩
        exact (List.perm_append_comm.cons q).trans List.perm_middle.symm
      · refine Or.inr ⟨p, hp, _, u₁, u₂, v₁ ++ w, v₂, q :: (qs ++ ps'), rs, .inside hq hopen hts,
          hborders, rfl, List.append_assoc _ _ _, ?_⟩
        rw [List.cons_append, List.append_assoc]
        refine ((hperm.append_right ps').trans ?_).cons q
        rw [List.append_assoc]
        exact List.perm_append_comm.append_left qs
  | @behind q symbols cs ts u v w ps ps' hq hcs _ ih =>
      rcases ih with ⟨before, after, us, vs, qs, rs, rfl, hus, hvs, rfl⟩ |
        ⟨p, hp, us, u₁, u₂, v₁, v₂, qs, rs, hopen, hborders, rfl, rfl, hperm⟩
      · refine Or.inl ⟨.nonterminal q.production.lhs :: before, after, _, vs, q :: (ps ++ qs), rs,
          rfl, .node hq hcs hus, hvs, ?_⟩
        rw [List.cons_append, List.append_assoc]
      · refine Or.inr ⟨p, hp, _, w ++ u₁, u₂, v₁, v₂, q :: (ps ++ qs), rs, .behind hq hcs hopen,
          hborders, (List.append_assoc _ _ _).symm, rfl, ?_⟩
        rw [List.cons_append, List.append_assoc]
        exact (hperm.append_left ps).cons q

end OpenParses

/-! ### Binary productions -/

section Binary

variable {b c : String} {r s : Tree}

/-- Below an open node a binary production is put, whose left part is open and whose right part is
not. -/
lemma OpenParses.expand_left (h : g.OpenParses p.production.lhs [.nonterminal a] [t] u v ps)
    (hp : p ∈ g.productions) (hrhs : p.production.rhs = [.nonterminal b, .nonterminal c])
    (hc : g.Parses [.nonterminal c] [s] w qs) :
    ∃ r rs, g.OpenParses b [.nonterminal a] [r] u (w ++ v) rs ∧ rs.Perm (ps ++ p :: qs) := by
  have hcs := @OpenParses.here _ g b _ _ _ _ hc
  rw [← hrhs] at hcs
  obtain ⟨us, rs, hus, hperm⟩ := h.expand hp hcs
  obtain ⟨r, rfl⟩ := List.length_eq_one_iff.1 hus.length_eq
  rw [List.append_nil] at hus
  exact ⟨r, rs, hus, hperm⟩

/-- Or whose right part is open. -/
lemma OpenParses.expand_right (h : g.OpenParses p.production.lhs [.nonterminal a] [t] u v ps)
    (hp : p ∈ g.productions) (hrhs : p.production.rhs = [.nonterminal b, .nonterminal c])
    (hb : g.Parses [.nonterminal b] [s] w qs) :
    ∃ r rs, g.OpenParses c [.nonterminal a] [r] (u ++ w) v rs ∧ rs.Perm (ps ++ p :: qs) := by
  obtain ⟨q, hq, rfl, ds, qs, rfl, rfl, hds⟩ := hb.exists_of_nonterminal
  have hcs := OpenParses.behind hq hds (single g c)
  rw [← hrhs, List.append_nil, List.append_nil] at hcs
  obtain ⟨us, rs, hus, hperm⟩ := h.expand hp hcs
  obtain ⟨r, rfl⟩ := List.length_eq_one_iff.1 hus.length_eq
  exact ⟨r, rs, hus, hperm⟩

/-- Whether the open node is the left child of a node of a binary production that is open in another
tree. The right child spells something. -/
def ExpandsLeft (g : Grammar W) (name root : String) (u v : List String)
    (ps : List (Production W)) : Prop :=
  ∃ p ∈ g.productions, ∃ c t s v₁ w qs rs,
    p.production.rhs = [.nonterminal name, .nonterminal c] ∧
      g.OpenParses p.production.lhs [.nonterminal root] [t] u v₁ qs ∧
        g.Parses [.nonterminal c] [s] w rs ∧ w ≠ [] ∧ v = w ++ v₁ ∧ ps.Perm (qs ++ p :: rs)

/-- Whether it is the right child. -/
def ExpandsRight (g : Grammar W) (name root : String) (u v : List String)
    (ps : List (Production W)) : Prop :=
  ∃ p ∈ g.productions, ∃ b t s u₁ w qs rs,
    p.production.rhs = [.nonterminal b, .nonterminal name] ∧
      g.OpenParses p.production.lhs [.nonterminal root] [t] u₁ v qs ∧
        g.Parses [.nonterminal b] [s] w rs ∧ w ≠ [] ∧ u = u₁ ++ w ∧ ps.Perm (qs ++ p :: rs)

/-- In Chomsky normal form the open node is the root, or it has a sibling. -/
theorem OpenParses.cases_chomsky (hnormal : g.unweighted.isChomskyNormal = true)
    (h : g.OpenParses name [.nonterminal a] [t] u v ps) :
    (name = a ∧ u = [] ∧ v = [] ∧ ps = []) ∨ g.ExpandsLeft name a u v ps ∨
      g.ExpandsRight name a u v ps := by
  rcases h.cases_parent with ⟨before, after, ts, us, qs, rs, hsymbols, hts, hus, rfl⟩ |
    ⟨p, hp, ts, u₁, u₂, v₁, v₂, qs, rs, hopen, hborders, rfl, rfl, hperm⟩
  · rcases List.cons_eq_append_iff.1 hsymbols with ⟨rfl, heq⟩ | ⟨l, rfl, heq⟩
    · obtain ⟨hname, rfl⟩ := List.cons.inj heq
      cases hts
      cases hus
      exact Or.inl ⟨Symbol.nonterminal.inj hname, rfl, rfl, rfl⟩
    · simp at heq
  · obtain ⟨s, rfl⟩ := List.length_eq_one_iff.1 hopen.length_eq
    obtain ⟨before, after, us, vs, qs', rs', hrhs, hus, hvs, rfl⟩ := hborders
    rcases ContextFree.Grammar.rhs_cases hnormal (mem_unweighted hp) hrhs with
      ⟨c, rfl, rfl⟩ | ⟨b, rfl, rfl⟩
    · cases hus
      obtain ⟨r, rfl⟩ := List.length_eq_one_iff.1 hvs.spells.length_eq
      refine Or.inr (Or.inl ⟨p, hp, c, s, r, v₁, v₂, qs, rs', hrhs, ?_, hvs,
        hvs.ne_nil_of_mem_rhs hnormal hp (by simp [hrhs]), rfl, hperm⟩)
      rwa [List.append_nil]
    · cases hvs
      obtain ⟨r, rfl⟩ := List.length_eq_one_iff.1 hus.spells.length_eq
      rw [List.append_nil] at hperm
      exact Or.inr (Or.inr ⟨p, hp, b, s, r, u₁, u₂, qs, qs', hrhs, hopen, hus,
        hus.ne_nil_of_mem_rhs hnormal hp (by simp [hrhs]), rfl, hperm⟩)

end Binary

end DeductiveParsing.Weighted.Grammar
