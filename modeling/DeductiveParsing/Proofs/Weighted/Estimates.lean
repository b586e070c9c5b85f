/-
What the estimates of costs are defined for.

* `getElem?_relax`, `mem_foldl`, `mem_foldl_of_mem`: cells of a table that is relaxed step by step;
* `insideTable_induction`, `outsideTable_induction`: what every relaxation preserves holds of the
  tables;
* `mem_insideTable`: a name has an inside cost over as many tokens as a parse of it covers;
* `mem_outsideTable_of_binary`: a part of a cell has an outside cost if the cell has one and the
  other part an inside cost;
* `Estimates.isSome_outside?_of_binary`: likewise for the estimates around spans with parses;
* `Estimates.exists_number_of_outside?`: the estimates are finite if the costs of productions are.
-/
import DeductiveParsing.Proofs.Weight.Exact
import DeductiveParsing.Proofs.Weighted.Parses
import DeductiveParsing.Weighted.Estimate

namespace DeductiveParsing.Weighted

variable {W : Type} [Weight W]

/-! ### Tables -/

section Relax

variable {C α : Type} [BEq C] [Hashable C] [LawfulBEq C] [LawfulHashable C]
  {table : Std.HashMap C W} {cell cell' : C} {cost : W} {f : Std.HashMap C W → α → Std.HashMap C W}
  {x : α} {xs : List α}

lemma mem_relax : cell' ∈ relax table cell cost ↔ cell = cell' ∨ cell' ∈ table := by
  simp [relax, Std.HashMap.mem_insert]

/-- The cost in a relaxed cell is the new one if that is less than the old one, which is infinite if
there was none. -/
lemma getElem?_relax : (relax table cell cost)[cell']? =
    if cell == cell' then
      some (if Weight.less cost (table[cell]?.getD Weight.infinite) then cost
        else table[cell]?.getD Weight.infinite)
    else table[cell']? := by
  rw [relax, Std.HashMap.getElem?_insert, Std.HashMap.getD_eq_getD_getElem?]

lemma getElem?_relax_of_ne (h : cell ≠ cell') :
    (relax table cell cost)[cell']? = table[cell']? := by
  simp [getElem?_relax, h]

omit [Weight W] [LawfulBEq C] [LawfulHashable C] in
/-- Whether a table has a cost in some cell. -/
def HasCost (table : Std.HashMap C W) (cost : W) : Prop := ∃ cell : C, table[cell]? = some cost

omit [Weight W] [LawfulBEq C] [LawfulHashable C] in
/-- A table does not lose cells in steps that do not lose any. -/
lemma mem_foldl (hmono : ∀ table x, ∀ c ∈ table, c ∈ f table x) (h : cell ∈ table) :
    cell ∈ xs.foldl f table :=
  List.foldlRecOn (motive := (cell ∈ ·)) xs f h fun _ hmem x _ => hmono _ x _ hmem

omit [Weight W] [LawfulBEq C] [LawfulHashable C] in
/-- A table has a cell if one of the steps sees to it, whatever cells there are more by then. -/
lemma mem_foldl_of_mem (hmono : ∀ table x, ∀ c ∈ table, c ∈ f table x) (hx : x ∈ xs)
    (hstep : ∀ table', (∀ c ∈ table, c ∈ table') → cell ∈ f table' x) :
    cell ∈ xs.foldl f table := by
  obtain ⟨before, behind, rfl⟩ := List.append_of_mem hx
  rw [List.foldl_append, List.foldl_cons]
  exact mem_foldl hmono (hstep _ fun c hc => mem_foldl hmono hc)

end Relax

/-! ### Lengths -/

variable {k l n : ℕ}

lemma mem_longLengths : l ∈ longLengths n ↔ 2 ≤ l ∧ l ≤ n := by
  rw [longLengths, List.mem_range'_1]
  omega

lemma mem_firstLengths : k ∈ firstLengths l ↔ 0 < k ∧ k < l := by
  rw [firstLengths, List.mem_range'_1]
  omega

lemma longLengths_succ (hn : 0 < n) : longLengths (n + 1) = longLengths n ++ [n + 1] := by
  obtain ⟨m, rfl⟩ := Nat.exists_eq_succ_of_ne_zero hn.ne'
  simp only [longLengths, Nat.succ_eq_add_one, Nat.add_sub_cancel, List.range'_1_concat]
  rw [Nat.add_comm 2 m]

variable {g : Grammar W} {a b c : String} {p : Production W}

/-- The costs of binary productions. -/
def binaryCosts (g : Grammar W) : List (BinaryCost W) := g.productions.filterMap binaryCost?

lemma mem_binaryCosts (hp : p ∈ g.productions)
    (hrhs : p.production.rhs = [.nonterminal b, .nonterminal c]) :
    ⟨p.production.lhs, b, c, Weight.cost p.weight⟩ ∈ binaryCosts g := by
  refine List.mem_filterMap.2 ⟨p, hp, ?_⟩
  simp [binaryCost?, Production.isBinary, Production.rhsNames, hrhs, Symbol.isNonterminal,
    Symbol.name]

lemma exists_of_mem_binaryCosts {x : BinaryCost W} (hx : x ∈ binaryCosts g) :
    ∃ p ∈ g.productions, ∃ b c, p.production.rhs = [.nonterminal b, .nonterminal c] ∧
      x = ⟨p.production.lhs, b, c, Weight.cost p.weight⟩ := by
  obtain ⟨p, hp, hcost⟩ := List.mem_filterMap.1 hx
  rw [binaryCost?] at hcost
  split at hcost
  · rename_i b c hbinary hnames
    obtain ⟨b', c', hrhs⟩ := Cyk.rhs_of_isBinary hbinary
    obtain ⟨rfl, rfl⟩ : b' = b ∧ c' = c := by
      simpa [Production.rhsNames, hrhs, Symbol.name] using hnames
    exact ⟨p, hp, b', c', hrhs, (Option.some.inj hcost).symm⟩
  · cases hcost

/-! ### Inside -/

section Inside

variable {x : BinaryCost W} {table : InsideTable W} {cell : String × ℕ}

/-- What holds before the cells over `l` tokens are relaxed, and is preserved by each relaxation,
holds behind. -/
lemma insideLength_induction {P : InsideTable W → Prop} {binary : List (BinaryCost W)}
    (h : P table) (hrelax : ∀ table, P table → ∀ x ∈ binary, ∀ k m, 0 < k → 0 < m → k + m = l →
      ∀ v w, table[(x.left, k)]? = some v → table[(x.right, m)]? = some w →
        P (relax table (x.lhs, l) (Weight.add (Weight.add x.cost v) w))) :
    P (insideLength binary table l) := by
  refine List.foldlRecOn _ _ h fun table h x hx => ?_
  refine List.foldlRecOn _ _ h fun table h k hk => ?_
  obtain ⟨hpos, hlt⟩ := mem_firstLengths.1 hk
  rw [insideStep]
  split
  · rename_i v w hv hw
    exact hrelax table h x hx k (l - k) hpos (by omega) (by omega) v w hv hw
  · exact h

lemma mem_insideStep (h : cell ∈ table) : cell ∈ insideStep l x table k := by
  rw [insideStep]
  split
  · exact mem_relax.2 (Or.inr h)
  · exact h

lemma mem_insideLength {binary : List (BinaryCost W)} (h : cell ∈ table) :
    cell ∈ insideLength binary table l :=
  mem_foldl (fun _ _ _ h => mem_foldl (fun _ _ _ => mem_insideStep) h) h

/-- Over `l` tokens a name has a cost if the two parts of a production of it have costs over the
parts of the tokens. -/
lemma mem_insideLength_of_binary {binary : List (BinaryCost W)} (hx : x ∈ binary) {m : ℕ}
    (hk : 0 < k) (hm : 0 < m) (hleft : (x.left, k) ∈ table) (hright : (x.right, m) ∈ table) :
    (x.lhs, k + m) ∈ insideLength binary table (k + m) := by
  refine mem_foldl_of_mem (fun _ _ _ h => mem_foldl (fun _ _ _ => mem_insideStep) h) hx
    fun table' h => ?_
  refine mem_foldl_of_mem (fun _ _ _ => mem_insideStep) (mem_firstLengths.2 ⟨hk, by omega⟩)
    fun table'' h' => ?_
  have hleft' := h' _ (h _ hleft)
  have hright' := h' _ (h _ hright)
  rw [insideStep, Nat.add_sub_cancel_left, Std.HashMap.getElem?_eq_some_getElem hleft',
    Std.HashMap.getElem?_eq_some_getElem hright']
  exact mem_relax.2 (Or.inl rfl)

lemma insideTable_one (g : Grammar W) : insideTable g 1 = insideLexical g := rfl

lemma insideTable_succ (g : Grammar W) (hn : 0 < n) :
    insideTable g (n + 1) = insideLength (binaryCosts g) (insideTable g n) (n + 1) := by
  rw [insideTable, longLengths_succ hn, List.foldl_append]
  rfl

lemma mem_insideTable_mono {m : ℕ} (hm : 0 < m) (hmn : m ≤ n) (h : cell ∈ insideTable g m) :
    cell ∈ insideTable g n := by
  induction n, hmn using Nat.le_induction with
  | base => exact h
  | succ n hmn ih =>
      rw [insideTable_succ g (hm.trans_le hmn)]
      exact mem_insideLength ih

/-- The costs over one token are those of lexical productions. -/
lemma getElem?_insideTable_one (hn : 0 < n) :
    (insideTable g n)[(a, 1)]? = (insideLexical g)[(a, 1)]? := by
  induction n, hn using Nat.le_induction with
  | base => rfl
  | succ n hn ih =>
      rw [insideTable_succ g hn]
      refine insideLength_induction (P := fun table => table[(a, 1)]? = (insideLexical g)[(a, 1)]?)
        ih fun table h x _ k m _ _ _ v w _ _ => ?_
      rw [getElem?_relax_of_ne, h]
      simp only [ne_eq, Prod.mk.injEq, not_and]
      omega

/-- A name has a cost over as many tokens as a parse of it covers. -/
theorem mem_insideTable (hnormal : g.unweighted.isChomskyNormal = true) {t : Tree}
    {w : List String} {ps : List (Production W)} (h : g.Parses [.nonterminal a] [t] w ps)
    (hw : w ≠ []) (hle : w.length ≤ n) : (a, w.length) ∈ insideTable g n := by
  refine mem_insideTable_mono (List.length_pos_iff.2 hw) hle (Grammar.Parses.induction_chomsky
    hnormal (motive := fun a _ w _ => w ≠ [] → (a, w.length) ∈ insideTable g w.length) ?lexical
      ?empty ?binary h hw)
  case lexical =>
    intro p hp b hrhs _
    have hlexical : p.production.isLexical = true := by
      simp [Production.isLexical, hrhs, Symbol.isTerminal]
    rw [List.length_singleton, insideTable_one, insideLexical]
    exact mem_foldl_of_mem (fun _ _ _ h => mem_relax.2 (Or.inr h))
      (List.mem_filter.2 ⟨hp, hlexical⟩) fun _ _ => mem_relax.2 (Or.inl rfl)
  case empty => exact fun _ _ _ hw => absurd rfl hw
  case binary =>
    intro p hp b c _ _ u v _ _ hrhs _ _ hu hv ihleft ihright _
    have hu' := List.length_pos_iff.2 hu
    have hv' := List.length_pos_iff.2 hv
    obtain ⟨m, hm⟩ : ∃ m, u.length + v.length = m + 1 := ⟨u.length + v.length - 1, by omega⟩
    have hcell := mem_insideLength_of_binary (mem_binaryCosts hp hrhs) hu' hv'
      (mem_insideTable_mono (n := m) hu' (by omega) (ihleft hu))
      (mem_insideTable_mono (n := m) hv' (by omega) (ihright hv))
    rw [List.length_append]
    rw [hm] at hcell ⊢
    rwa [insideTable_succ g (by omega)]

/-- What holds of the empty table and is preserved by all relaxations holds of the table. -/
theorem insideTable_induction {P : InsideTable W → Prop} (hempty : P ∅)
    (hlexical : ∀ table, P table → ∀ p ∈ g.productions, p.production.isLexical = true →
      P (relax table (p.production.lhs, 1) (Weight.cost p.weight)))
    (hbinary : ∀ table, P table → ∀ p ∈ g.productions, ∀ b c,
      p.production.rhs = [.nonterminal b, .nonterminal c] → ∀ k m, k + m ≤ n → ∀ v w,
        table[(b, k)]? = some v → table[(c, m)]? = some w →
          P (relax table (p.production.lhs, k + m)
            (Weight.add (Weight.add (Weight.cost p.weight) v) w))) :
    P (insideTable g n) := by
  refine List.foldlRecOn _ _ ?_ fun table h l hl => insideLength_induction h
    fun table h x hx k m _ _ hkm v w hv hw => ?_
  · refine List.foldlRecOn _ _ hempty fun table h p hp => ?_
    obtain ⟨hp, hlexical'⟩ := List.mem_filter.1 hp
    exact hlexical table h p hp hlexical'
  · obtain ⟨p, hp, b, c, hrhs, rfl⟩ := exists_of_mem_binaryCosts hx
    subst hkm
    exact hbinary table h p hp b c hrhs k m (mem_longLengths.1 hl).2 v w hv hw

end Inside

/-! ### Outside -/

section Outside

variable {inside : InsideTable W} {x : BinaryCost W} {out : W} {table : OutsideTable W} {i m : ℕ}
  {cell : String × ℕ × ℕ}

lemma mem_outsideStep (h : cell ∈ table) : cell ∈ outsideStep inside i l x out table k := by
  rw [outsideStep]
  split <;> split <;> simp [mem_relax, h]

lemma mem_outsideBelow (h : cell ∈ table) : cell ∈ outsideBelow inside i l table x := by
  rw [outsideBelow]
  split
  · exact mem_foldl (fun _ _ _ => mem_outsideStep) h
  · exact h

lemma mem_outsideLength {binary : List (BinaryCost W)} (h : cell ∈ table) :
    cell ∈ outsideLength binary inside n table l :=
  mem_foldl (fun _ _ _ h => mem_foldl (fun _ _ _ => mem_outsideBelow) h) h

/-- A part of a production has a cost around it if there is one around the whole and an inside cost
of the other part. -/
lemma mem_outsideStep_of_mem :
    ((x.right, m) ∈ inside → (x.left, i, k) ∈ outsideStep inside i (k + m) x out table k) ∧
      ((x.left, k) ∈ inside →
        (x.right, i + k, m) ∈ outsideStep inside i (k + m) x out table k) := by
  refine ⟨fun hright => ?_, fun hleft => ?_⟩
  · rw [outsideStep, Nat.add_sub_cancel_left, Std.HashMap.getElem?_eq_some_getElem hright]
    split <;> simp [mem_relax]
  · rw [outsideStep, Nat.add_sub_cancel_left, Std.HashMap.getElem?_eq_some_getElem hleft]
    simp [mem_relax]

lemma mem_outsideLength_of_binary {binary : List (BinaryCost W)} (hx : x ∈ binary) (hk : 0 < k)
    (hm : 0 < m) (hle : i + (k + m) ≤ n) (h : (x.lhs, i, k + m) ∈ table) :
    ((x.right, m) ∈ inside → (x.left, i, k) ∈ outsideLength binary inside n table (k + m)) ∧
      ((x.left, k) ∈ inside →
        (x.right, i + k, m) ∈ outsideLength binary inside n table (k + m)) := by
  have hstep : ∀ cell, (∀ out table, cell ∈ outsideStep inside i (k + m) x out table k) →
      cell ∈ outsideLength binary inside n table (k + m) := by
    intro cell hcell
    refine mem_foldl_of_mem (fun _ _ _ h => mem_foldl (fun _ _ _ => mem_outsideBelow) h)
      (List.mem_range.2 (by omega : i < n - (k + m) + 1)) fun table' h' => ?_
    refine mem_foldl_of_mem (fun _ _ _ => mem_outsideBelow) hx fun table'' h'' => ?_
    rw [outsideBelow, Std.HashMap.getElem?_eq_some_getElem (h'' _ (h' _ h))]
    exact mem_foldl_of_mem (fun _ _ _ => mem_outsideStep) (mem_firstLengths.2 ⟨hk, by omega⟩)
      fun table''' _ => hcell _ table'''
  exact ⟨fun hright => hstep _ fun _ _ => mem_outsideStep_of_mem.1 hright,
    fun hleft => hstep _ fun _ _ => mem_outsideStep_of_mem.2 hleft⟩

/-- What holds before the cells below spans of `l` tokens are relaxed, and is preserved by each
relaxation, holds behind. The cost around the whole is that of an earlier table, in which the
parts have not been relaxed. -/
lemma outsideLength_induction {P : OutsideTable W → Prop} {binary : List (BinaryCost W)}
    (h : P table) (hrelax : ∀ table₀ table, P table₀ → P table → ∀ x ∈ binary, ∀ i k m, 0 < k →
      0 < m → k + m = l → ∀ out, table₀[(x.lhs, i, k + m)]? = some out →
        (∀ v, inside[(x.right, m)]? = some v →
          P (relax table (x.left, i, k) (Weight.add (Weight.add out x.cost) v))) ∧
        ∀ v, inside[(x.left, k)]? = some v →
          P (relax table (x.right, i + k, m) (Weight.add (Weight.add out x.cost) v))) :
    P (outsideLength binary inside n table l) := by
  refine List.foldlRecOn _ _ h fun table h i _ => ?_
  refine List.foldlRecOn _ _ h fun table₀ h₀ x hx => ?_
  rw [outsideBelow]
  split
  · rename_i out hout
    refine List.foldlRecOn _ _ h₀ fun table h k hk => ?_
    obtain ⟨hpos, hlt⟩ := mem_firstLengths.1 hk
    obtain ⟨m, rfl⟩ : ∃ m, l = k + m := ⟨l - k, by omega⟩
    have hparts := fun table h => hrelax table₀ table h₀ h x hx i k m hpos (by omega) rfl out hout
    rw [outsideStep, Nat.add_sub_cancel_left]
    -- first the cell of the left part, then that of the right part
    split
    · rename_i w hw
      refine (hparts _ ?_).2 w hw
      split
      · rename_i v hv
        exact (hparts table h).1 v hv
      · exact h
    · split
      · rename_i v hv
        exact (hparts table h).1 v hv
      · exact h
  · exact h₀

/-- Cells of at least `l` tokens stay as they are when the cells below spans of `l` tokens are
relaxed. -/
lemma getElem?_outsideLength {binary : List (BinaryCost W)} (hm : l ≤ m) :
    (outsideLength binary inside n table l)[(a, i, m)]? = table[(a, i, m)]? := by
  refine outsideLength_induction (P := fun table' => table'[(a, i, m)]? = table[(a, i, m)]?) rfl
    fun _ table' _ h x _ i' k m' hk hm' hkm out _ => ⟨fun v _ => ?_, fun v _ => ?_⟩
  all_goals
    rw [getElem?_relax_of_ne, h]
    simp only [ne_eq, Prod.mk.injEq, not_and]
    omega

/-- What holds of the table with the cell around the whole input, and is preserved by all
relaxations, holds of the table. -/
theorem outsideTable_induction {P : OutsideTable W → Prop}
    (h : P ((∅ : OutsideTable W).insert (g.start, 0, n) Weight.zero))
    (hrelax : ∀ table₀ table, P table₀ → P table → ∀ p ∈ g.productions, ∀ b c,
      p.production.rhs = [.nonterminal b, .nonterminal c] → ∀ i k m, 0 < k → 0 < m → k + m ≤ n →
        ∀ out, table₀[(p.production.lhs, i, k + m)]? = some out →
          (∀ v, inside[(c, m)]? = some v →
            P (relax table (b, i, k) (Weight.add (Weight.add out (Weight.cost p.weight)) v))) ∧
          ∀ v, inside[(b, k)]? = some v →
            P (relax table (c, i + k, m)
              (Weight.add (Weight.add out (Weight.cost p.weight)) v))) :
    P (outsideTable g inside n) := by
  refine List.foldlRecOn _ _ h fun table h l hl => outsideLength_induction h
    fun table₀ table h₀ h x hx i k m hk hm hkm out hout => ?_
  obtain ⟨p, hp, b, c, hrhs, rfl⟩ := exists_of_mem_binaryCosts hx
  obtain ⟨-, hle⟩ := mem_longLengths.1 (List.mem_reverse.1 hl)
  exact hrelax table₀ table h₀ h p hp b c hrhs i k m hk hm (hkm.trans_le hle) out hout

/-- When the cells below spans of `l` tokens are relaxed, the cells of at least as many tokens are
as they are in the whole table, and the table has all cells there are by then. -/
lemma exists_outsideLength (g : Grammar W) (inside : InsideTable W) (hl : l ∈ longLengths n) :
    ∃ table : OutsideTable W, (∀ (a : String) (i m : ℕ), l ≤ m →
      (outsideTable g inside n)[(a, i, m)]? = table[(a, i, m)]?) ∧
      ∀ cell ∈ outsideLength (binaryCosts g) inside n table l, cell ∈ outsideTable g inside n := by
  obtain ⟨shorter, longer, hsplit⟩ := List.append_of_mem hl
  have hsorted : (shorter ++ l :: longer).Pairwise (· < ·) := by
    rw [← hsplit]
    exact List.pairwise_lt_range'
  have hlt : ∀ k ∈ shorter, k < l := fun k hk =>
    (List.pairwise_append.1 hsorted).2.2 k hk l List.mem_cons_self
  refine ⟨longer.reverse.foldl (outsideLength (binaryCosts g) inside n)
    ((∅ : OutsideTable W).insert (g.start, 0, n) Weight.zero), fun a i m hm => ?_, fun cell h => ?_⟩
  all_goals
    rw [outsideTable, hsplit, List.reverse_append, List.reverse_cons, List.append_assoc,
      List.foldl_append, List.singleton_append, List.foldl_cons]
  · refine List.foldlRecOn (motive := fun table : OutsideTable W => table[(a, i, m)]? = _) _ _
      (getElem?_outsideLength hm) fun table h k hk => ?_
    rw [getElem?_outsideLength ((hlt k (List.mem_reverse.1 hk)).le.trans hm), h]
  · exact mem_foldl (fun _ _ _ => mem_outsideLength) h

/-- For two tokens only the cells below the whole input are relaxed. -/
lemma outsideTable_two (g : Grammar W) (inside : InsideTable W) : outsideTable g inside 2 =
    (binaryCosts g).foldl (outsideBelow inside 0 2)
      ((∅ : OutsideTable W).insert (g.start, 0, 2) Weight.zero) := rfl

/-- A part of a production has a cost around it if there is one around the whole and an inside cost
of the other part. -/
theorem mem_outsideTable_of_binary (hp : p ∈ g.productions)
    (hrhs : p.production.rhs = [.nonterminal b, .nonterminal c]) (hk : 0 < k) (hm : 0 < m)
    (hle : i + (k + m) ≤ n) (h : (p.production.lhs, i, k + m) ∈ outsideTable g inside n) :
    ((c, m) ∈ inside → (b, i, k) ∈ outsideTable g inside n) ∧
      ((b, k) ∈ inside → (c, i + k, m) ∈ outsideTable g inside n) := by
  obtain ⟨table, hframe, hkeeps⟩ := exists_outsideLength g inside
    (mem_longLengths.2 ⟨by omega, by omega⟩ : k + m ∈ longLengths n)
  have hmem : (p.production.lhs, i, k + m) ∈ table := by
    rw [← Std.HashMap.isSome_getElem?_iff_mem] at h ⊢
    rwa [← hframe _ _ _ le_rfl]
  obtain ⟨hb, hc⟩ := mem_outsideLength_of_binary (mem_binaryCosts hp hrhs) hk hm hle hmem
  exact ⟨fun hright => hkeeps _ (hb hright), fun hleft => hkeeps _ (hc hleft)⟩

/-- Nothing costs more around the whole input. -/
lemma getElem?_outsideTable_start (g : Grammar W) (inside : InsideTable W) (n : ℕ) :
    (outsideTable g inside n)[(g.start, 0, n)]? = some Weight.zero := by
  refine outsideTable_induction (P := fun table => table[(g.start, 0, n)]? = some Weight.zero)
    (by simp) fun _ table _ h p _ b c _ i k m hk hm hkm out _ => ⟨fun v _ => ?_, fun v _ => ?_⟩
  all_goals
    rw [getElem?_relax_of_ne, h]
    simp only [ne_eq, Prod.mk.injEq, not_and]
    omega

/-- Every cell but that around the whole input covers a token. -/
lemma eq_or_pos_of_mem_outsideTable (h : (a, i, k) ∈ outsideTable g inside n) :
    (a = g.start ∧ i = 0 ∧ k = n) ∨ 0 < k := by
  revert a i k
  refine outsideTable_induction (P := fun table => ∀ {a i k}, (a, i, k) ∈ table →
    (a = g.start ∧ i = 0 ∧ k = n) ∨ 0 < k) (fun h => ?_)
      fun _ table _ h p _ b c _ i k m hk hm _ out _ => ⟨fun v _ a' i' k' hmem => ?_,
        fun v _ a' i' k' hmem => ?_⟩
  · simp only [Std.HashMap.mem_insert, beq_iff_eq, Prod.mk.injEq, Std.HashMap.not_mem_empty,
      or_false] at h
    exact Or.inl ⟨h.1.symm, h.2.1.symm, h.2.2.symm⟩
  all_goals
    rcases mem_relax.1 hmem with heq | hmem
    · cases heq
      exact Or.inr ‹_›
    · exact h hmem

end Outside

/-! ### Estimates -/

namespace Estimates

variable {i : ℕ}

lemma isSome_outside? : ((ofGrammar g n).outside? a i l).isSome ↔
    i + l ≤ n ∧ (a, i, l) ∈ outsideTable g (insideTable g n) n := by
  rw [← Std.HashMap.isSome_getElem?_iff_mem, outside?, ofGrammar]
  split <;> simp [*]

/-- Nothing costs more around the whole input. -/
lemma outside?_start (g : Grammar W) (n : ℕ) :
    (ofGrammar g n).outside? g.start 0 n = some Weight.zero := by
  rw [outside?, ofGrammar, if_pos (Nat.zero_add n).le]
  exact getElem?_outsideTable_start g _ n

/-- Only around an empty input there is an estimate for no tokens, and only for the start symbol. -/
lemma eq_or_pos_of_outside? (h : ((ofGrammar g n).outside? a i l).isSome) :
    (a = g.start ∧ i = 0 ∧ l = n) ∨ 0 < l :=
  eq_or_pos_of_mem_outsideTable (isSome_outside?.1 h).2

/-- If there is an estimate around a span of two parts with parses, there are estimates around both
parts. -/
theorem isSome_outside?_of_binary (hnormal : g.unweighted.isChomskyNormal = true)
    (hp : p ∈ g.productions) (hrhs : p.production.rhs = [.nonterminal b, .nonterminal c])
    {t u : Tree} {v w : List String} {ps qs : List (Production W)}
    (hleft : g.Parses [.nonterminal b] [t] v ps) (hright : g.Parses [.nonterminal c] [u] w qs)
    (hv : v ≠ []) (hw : w ≠ [])
    (h : ((ofGrammar g n).outside? p.production.lhs i (v.length + w.length)).isSome) :
    ((ofGrammar g n).outside? b i v.length).isSome ∧
      ((ofGrammar g n).outside? c (i + v.length) w.length).isSome := by
  obtain ⟨hle, hmem⟩ := isSome_outside?.1 h
  obtain ⟨hb, hc⟩ := mem_outsideTable_of_binary hp hrhs (List.length_pos_iff.2 hv)
    (List.length_pos_iff.2 hw) hle hmem
  have hinside := mem_insideTable hnormal hleft hv (by omega : v.length ≤ n)
  have hinside' := mem_insideTable hnormal hright hw (by omega : w.length ≤ n)
  exact ⟨isSome_outside?.2 ⟨by omega, hb hinside'⟩, isSome_outside?.2 ⟨by omega, hc hinside⟩⟩

/-! #### Finite costs -/

section Finite

variable {K : Type} [Numbers K] {g : Grammar (Exact K)}

/-- Whether all costs in a table are numbers. -/
def IsFinite {C : Type} [BEq C] [Hashable C] (table : Std.HashMap C (Exact K)) : Prop :=
  ∀ w, HasCost table w → ∃ x, w = .number x

lemma IsFinite.relax {C : Type} [BEq C] [Hashable C] [LawfulBEq C] [LawfulHashable C]
    {table : Std.HashMap C (Exact K)} (h : IsFinite table) (cell : C) (x : K) :
    IsFinite (relax table cell (.number x)) := by
  rintro w ⟨cell', hcell⟩
  rw [getElem?_relax] at hcell
  split at hcell
  · -- only the cell of another number keeps its cost
    obtain rfl := Option.some.inj hcell
    split
    · exact ⟨x, rfl⟩
    · rename_i hless
      cases hold : table[cell]? with
      | none =>
          rw [hold] at hless
          exact absurd rfl hless
      | some w => exact h w ⟨cell, hold⟩
  · exact h w ⟨cell', hcell⟩

/-- If all productions have finite costs, all estimates are finite. -/
theorem exists_number_of_outside? (hcosts : ∀ p ∈ g.productions, ∃ c, Weight.cost p.weight =
    Exact.number c) {w : Exact K} (h : (ofGrammar g n).outside? a i l = some w) :
    ∃ x, w = .number x := by
  have hinside : IsFinite (insideTable g n) := by
    refine insideTable_induction (fun w ⟨cell, hcell⟩ => by simp at hcell)
      (fun table h p hp _ => ?_) fun table h p hp b c _ k m _ v w hv hw => ?_
    · obtain ⟨c, hc⟩ := hcosts p hp
      rw [hc]
      exact h.relax _ c
    · obtain ⟨c, hc⟩ := hcosts p hp
      obtain ⟨x, rfl⟩ := h v ⟨_, hv⟩
      obtain ⟨y, rfl⟩ := h w ⟨_, hw⟩
      rw [hc, Exact.add_number, Exact.add_number]
      exact h.relax _ _
  have houtside : IsFinite (outsideTable g (insideTable g n) n) := by
    refine outsideTable_induction (fun w ⟨cell, hcell⟩ => ?_)
      fun table₀ table h₀ h p hp b c _ i k m _ _ _ out hout => ⟨fun v hv => ?_, fun v hv => ?_⟩
    · rw [Std.HashMap.getElem?_insert] at hcell
      split at hcell
      · exact ⟨0, (Option.some.inj hcell).symm⟩
      · simp at hcell
    all_goals
      obtain ⟨c, hc⟩ := hcosts p hp
      obtain ⟨x, rfl⟩ := h₀ out ⟨_, hout⟩
      obtain ⟨y, rfl⟩ := hinside v ⟨_, hv⟩
      rw [hc, Exact.add_number, Exact.add_number]
      exact h.relax _ _
  rw [outside?] at h
  split at h
  · exact houtside w ⟨_, h⟩
  · cases h

end Finite

end Estimates

end DeductiveParsing.Weighted
