/-
Estimates of costs are the least costs of parses, whatever the tokens are.

* `Grammar.insideCosts`, `Grammar.outsideCosts`: the costs of the parses of a name over a number of
  tokens, and of the trees of the start symbol in which it is open;
* `HasCostsFrom`: whether each cell of a table has one of the costs that belong there;
* `hasCostsFrom_insideTable`, `hasCostsFrom_outsideTable`: so it is in both tables;
* `isAtMost_of_parses`, `isAtMost_of_openParses`: and no cell has more than the cost of a tree;
* `isLeast_insideTable`, `isLeast_outsideTable`: so each cell has the least cost;
* `Estimates.ofGrammar_exact`: the estimates are the least costs.
-/
import DeductiveParsing.Proofs.Weighted.Finality
import DeductiveParsing.Proofs.Weighted.OpenTrees
import DeductiveParsing.Proofs.Weighted.ZeroProbability

namespace DeductiveParsing.Weighted

open ContextFree (word)

variable {K : Type} [Numbers K] {g : Grammar (Exact K)} {p : Production (Exact K)}
  {ps qs rs : List (Production (Exact K))} {a : String} {i k l m n : ℕ}

/-! ### Costs -/

/-- The cost of a production together with others, in whatever order they are. -/
lemma costsOf_of_perm (h : rs.Perm (ps ++ p :: qs)) :
    costsOf rs = costsOf ps + costOf p + costsOf qs := by
  rw [costsOf, (h.map costOf).sum_eq]
  simp [costsOf, add_assoc]

/-- The costs of all parses of words of a length from a name. -/
def Grammar.insideCosts (g : Grammar (Exact K)) (name : String) (l : ℕ) : Set (WithTop K) :=
  {c | ∃ w, w.length = l ∧ c ∈ g.valuesOf costsOf name w}

/-- The costs of all trees of the start symbol over `n` places that are complete but for one node
with a name, which is open and stands for the `l` places behind the first `i`. -/
def Grammar.outsideCosts (g : Grammar (Exact K)) (n : ℕ) (name : String) (i l : ℕ) :
    Set (WithTop K) :=
  {c | ∃ t u v ps, g.OpenParses name [.nonterminal g.start] [t] u v ps ∧ u.length = i ∧
    i + l + v.length = n ∧ costsOf ps = c}

/-- A name has a parse of a length iff it derives a word of that length. -/
lemma insideCosts_nonempty_iff : (g.insideCosts a l).Nonempty ↔
    ∃ w, w.length = l ∧ g.unweighted.Derives [.nonterminal a] (word w) := by
  constructor
  · rintro ⟨c, w, hw, hc⟩
    exact ⟨w, hw, (Grammar.nonempty_valuesOf_iff _).1 ⟨c, hc⟩⟩
  · rintro ⟨w, hw, hderives⟩
    obtain ⟨c, hc⟩ := (Grammar.nonempty_valuesOf_iff costsOf).2 hderives
    exact ⟨c, w, hw, hc⟩

/-! ### Tables -/

section Tables

variable {C : Type} [BEq C] [Hashable C] {table : Std.HashMap C (Exact K)} {cell cell' : C}
  {costs : C → Set (WithTop K)} {c d : WithTop K} {v : Exact K}

/-- What is not greater than one cost is not greater than one that is higher. -/
lemma IsAtMost.weaken (h : IsAtMost table cell (.ofTop c)) (hle : c ≤ d) :
    IsAtMost table cell (.ofTop d) := by
  obtain ⟨v, hv, hless⟩ := h
  refine ⟨v, hv, ?_⟩
  have htop : ∀ e : WithTop K, v = .ofTop e → Weight.less (.ofTop d) v = false := by
    rintro e rfl
    rw [Exact.less_ofTop, decide_eq_false_iff_not, not_lt] at hless ⊢
    exact hless.trans hle
  cases v with
  | number x => exact htop x rfl
  | undefined => exact Exact.less_undefined _
  | infinite negative =>
      cases negative with
      | false => exact htop ⊤ rfl
      | true => cases d <;> rfl

/-- Whether each cell of a table has one of the costs that belong there. -/
def HasCostsFrom (table : Std.HashMap C (Exact K)) (costs : C → Set (WithTop K)) : Prop :=
  ∀ cell v, table[cell]? = some v → ∃ c ∈ costs cell, v = .ofTop c

namespace HasCostsFrom

lemma exists_le (h : HasCostsFrom table costs) (hmost : IsAtMost table cell (.ofTop c)) :
    ∃ d ∈ costs cell, table[cell]? = some (.ofTop d) ∧ d ≤ c := by
  obtain ⟨v, hv, hless⟩ := hmost
  obtain ⟨d, hd, rfl⟩ := h cell v hv
  rw [Exact.less_ofTop, decide_eq_false_iff_not, not_lt] at hless
  exact ⟨d, hd, hv, hless⟩

/-- A cell that has one of its costs and not more than any of them has the least. -/
theorem isLeast (h : HasCostsFrom table costs) (cell : C)
    (hmost : ∀ c ∈ costs cell, IsAtMost table cell (.ofTop c)) :
    (table[cell]?.isSome ↔ (costs cell).Nonempty) ∧
      ∀ v, table[cell]? = some v ↔ ∃ c, v = .ofTop c ∧ IsLeast (costs cell) c := by
  refine ⟨⟨fun hsome => ?_, fun ⟨c, hc⟩ => ?_⟩, fun v => ⟨fun hv => ?_, ?_⟩⟩
  · obtain ⟨v, hv⟩ := Option.isSome_iff_exists.1 hsome
    obtain ⟨c, hc, -⟩ := h cell v hv
    exact ⟨c, hc⟩
  · obtain ⟨d, -, hd, -⟩ := h.exists_le (hmost c hc)
    exact Option.isSome_of_eq_some hd
  · obtain ⟨c, hc, rfl⟩ := h cell v hv
    refine ⟨c, rfl, hc, fun d hd => ?_⟩
    obtain ⟨e, -, he, hle⟩ := h.exists_le (hmost d hd)
    have heq := congrArg Exact.toTop (Option.some.inj (hv.symm.trans he))
    rw [Exact.toTop_ofTop, Exact.toTop_ofTop] at heq
    exact heq ▸ hle
  · rintro ⟨c, rfl, hc, hleast⟩
    obtain ⟨d, hd, heq, hle⟩ := h.exists_le (hmost c hc)
    rw [heq, le_antisymm hle (hleast hd)]

/-- A relaxation with a cost that belongs into the cell keeps all costs where they belong. -/
lemma relax [LawfulBEq C] [LawfulHashable C] (h : HasCostsFrom table costs) (hc : c ∈ costs cell) :
    HasCostsFrom (relax table cell (.ofTop c)) costs := by
  intro cell' v hv
  rw [getElem?_relax] at hv
  split at hv
  next heq =>
    obtain rfl := LawfulBEq.eq_of_beq heq
    obtain rfl := Option.some.inj hv
    split
    next => exact ⟨c, hc, rfl⟩
    next hless =>
      cases hold : table[cell]? with
      | some w => exact h cell w hold
      | none =>
          -- only an infinite cost is not less than that of an empty cell
          rw [hold, Option.getD_none, Exact.infinite_eq, ← Exact.ofTop_top, Exact.less_ofTop,
            decide_eq_true_iff, not_lt_top_iff] at hless
          exact ⟨c, hc, by rw [hless]; rfl⟩
  next => exact h cell' v hv

end HasCostsFrom

end Tables

/-! ### Inside -/

lemma mem_insideCosts_of_lexical (hp : p ∈ g.productions)
    (hlexical : p.production.isLexical = true) : costOf p ∈ g.insideCosts p.production.lhs 1 := by
  obtain ⟨b, hrhs⟩ := Cyk.rhs_of_isLexical hlexical
  exact ⟨[b], rfl, _, [p], .of_lexical hp hrhs, by simp [costsOf]⟩

lemma mem_insideCosts_of_binary {b c : String} {x y : WithTop K} (hp : p ∈ g.productions)
    (hrhs : p.production.rhs = [.nonterminal b, .nonterminal c]) (hx : x ∈ g.insideCosts b k)
    (hy : y ∈ g.insideCosts c m) : costOf p + x + y ∈ g.insideCosts p.production.lhs (k + m) := by
  obtain ⟨u, rfl, t, ps, ht, rfl⟩ := hx
  obtain ⟨v, rfl, s, qs, hs, rfl⟩ := hy
  exact ⟨u ++ v, List.length_append, _, _, .of_binary hp hrhs ht hs, costsOf_node p ps qs⟩

/-- Each cell of the table of inside costs has the cost of a parse. -/
theorem hasCostsFrom_insideTable (hcosts : HasCosts g) (n : ℕ) :
    HasCostsFrom (insideTable g n) fun cell => g.insideCosts cell.1 cell.2 := by
  refine insideTable_induction (P := fun table => HasCostsFrom table _)
    (fun cell v hv => by simp at hv) (fun table h p hp hlexical => ?_)
      fun table h p hp b c hrhs k m _ v w hv hw => ?_
  · rw [hcosts p hp]
    exact h.relax (mem_insideCosts_of_lexical hp hlexical)
  · obtain ⟨x, hx, rfl⟩ := h _ v hv
    obtain ⟨y, hy, rfl⟩ := h _ w hw
    rw [hcosts p hp, Exact.add_ofTop, Exact.add_ofTop]
    exact h.relax (mem_insideCosts_of_binary hp hrhs hx hy)

/-- If the cells of two names have no more than certain costs, that of a production of both has no
more than their sum. -/
lemma isAtMost_insideTable_of_parts {b c : String} {x y : WithTop K} (hcosts : HasCosts g)
    (hp : p ∈ g.productions) (hrhs : p.production.rhs = [.nonterminal b, .nonterminal c])
    (hk : 0 < k) (hm : 0 < m) (hle : k + m ≤ n)
    (hx : IsAtMost (insideTable g n) (b, k) (.ofTop x))
    (hy : IsAtMost (insideTable g n) (c, m) (.ofTop y)) :
    IsAtMost (insideTable g n) (p.production.lhs, k + m) (.ofTop (costOf p + x + y)) := by
  have hfrom := hasCostsFrom_insideTable hcosts n
  obtain ⟨v, -, hv, hvx⟩ := hfrom.exists_le hx
  obtain ⟨w, -, hw, hwy⟩ := hfrom.exists_le hy
  have hmost := isAtMost_insideTable (mem_binaryCosts hp hrhs) hk hm hle hv hw
  rw [hcosts p hp, Exact.add_ofTop, Exact.add_ofTop] at hmost
  exact hmost.weaken (add_le_add (add_le_add_right hvx _) hwy)

/-- The cell of a name and a length has no more than the cost of any parse. -/
theorem isAtMost_of_parses (hnormal : g.unweighted.isChomskyNormal = true) (hcosts : HasCosts g)
    {t : Tree} {w : List String} (h : g.Parses [.nonterminal a] [t] w ps) (hw : w ≠ [])
    (hle : w.length ≤ n) : IsAtMost (insideTable g n) (a, w.length) (.ofTop (costsOf ps)) := by
  refine Grammar.Parses.induction_chomsky hnormal (motive := fun a _ w ps => w ≠ [] →
    w.length ≤ n → IsAtMost (insideTable g n) (a, w.length) (.ofTop (costsOf ps)))
      ?lexical ?empty ?binary h hw hle
  case lexical =>
    intro p hp b hrhs _ _
    have hlexical : p.production.isLexical = true := by
      simp [Production.isLexical, hrhs, Symbol.isTerminal]
    have hmost := isAtMost_insideTable_lexical hp hlexical n
    rw [hcosts p hp] at hmost
    simpa [costsOf] using hmost
  case empty => exact fun _ _ _ hw => absurd rfl hw
  case binary =>
    intro p hp b c _ _ u v qs rs hrhs _ _ hu hv ihleft ihright _ hle
    rw [List.length_append] at hle ⊢
    rw [costsOf_node]
    exact isAtMost_insideTable_of_parts hcosts hp hrhs (List.length_pos_iff.2 hu)
      (List.length_pos_iff.2 hv) hle (ihleft hu (by omega)) (ihright hv (by omega))

/-- The cell has the least of these costs. -/
theorem isLeast_insideTable (hnormal : g.unweighted.isChomskyNormal = true) (hcosts : HasCosts g)
    (hl : 0 < l) (hle : l ≤ n) :
    ((insideTable g n)[(a, l)]?.isSome ↔ (g.insideCosts a l).Nonempty) ∧
      ∀ v, (insideTable g n)[(a, l)]? = some v ↔
        ∃ c, v = .ofTop c ∧ IsLeast (g.insideCosts a l) c := by
  refine (hasCostsFrom_insideTable hcosts n).isLeast (a, l) ?_
  rintro _ ⟨w, rfl, t, ps, hparses, rfl⟩
  exact isAtMost_of_parses hnormal hcosts hparses (List.length_pos_iff.1 hl) hle

/-! ### Outside -/

lemma mem_outsideCosts_start (g : Grammar (Exact K)) (n : ℕ) : 0 ∈ g.outsideCosts n g.start 0 n :=
  ⟨_, [], [], [], .single g g.start, rfl, by simp, rfl⟩

lemma mem_outsideCosts_of_binary {b c : String} {x y : WithTop K} (hp : p ∈ g.productions)
    (hrhs : p.production.rhs = [.nonterminal b, .nonterminal c])
    (hx : x ∈ g.outsideCosts n p.production.lhs i (k + m)) :
    (y ∈ g.insideCosts c m → x + costOf p + y ∈ g.outsideCosts n b i k) ∧
      (y ∈ g.insideCosts b k → x + costOf p + y ∈ g.outsideCosts n c (i + k) m) := by
  obtain ⟨t, u, v, ps, hopen, rfl, hn, rfl⟩ := hx
  constructor
  · rintro ⟨w, rfl, s, qs, hs, rfl⟩
    obtain ⟨r, rs, hr, hperm⟩ := hopen.expand_left hp hrhs hs
    refine ⟨r, u, w ++ v, rs, hr, rfl, ?_, costsOf_of_perm hperm⟩
    rw [List.length_append]
    omega
  · rintro ⟨w, rfl, s, qs, hs, rfl⟩
    obtain ⟨r, rs, hr, hperm⟩ := hopen.expand_right hp hrhs hs
    exact ⟨r, u ++ w, v, rs, hr, List.length_append, by omega, costsOf_of_perm hperm⟩

/-- Each cell of the table of outside costs has the cost of a tree with an open node. -/
theorem hasCostsFrom_outsideTable (hcosts : HasCosts g) (n : ℕ) :
    HasCostsFrom (outsideTable g (insideTable g n) n) fun cell =>
      g.outsideCosts n cell.1 cell.2.1 cell.2.2 := by
  have hinside := hasCostsFrom_insideTable hcosts n
  refine outsideTable_induction (P := fun table => HasCostsFrom table _) (fun cell v hv => ?_)
    fun table₀ table h₀ h p hp b c hrhs i k m _ _ _ out hout => ?_
  · rw [Std.HashMap.getElem?_insert] at hv
    split at hv
    next heq =>
      obtain rfl := LawfulBEq.eq_of_beq heq
      obtain rfl := Option.some.inj hv
      exact ⟨0, mem_outsideCosts_start g n, rfl⟩
    next => simp at hv
  · obtain ⟨x, hx, rfl⟩ := h₀ _ out hout
    refine ⟨fun v hv => ?_, fun v hv => ?_⟩
    all_goals
      obtain ⟨y, hy, rfl⟩ := hinside _ v hv
      rw [hcosts p hp, Exact.add_ofTop, Exact.add_ofTop]
    · exact h.relax ((mem_outsideCosts_of_binary hp hrhs hx).1 hy)
    · exact h.relax ((mem_outsideCosts_of_binary hp hrhs hx).2 hy)

/-- If the cell around a whole and that of one part of it have no more than certain costs, the cell
around the other part has no more than their sum together with the production. -/
lemma isAtMost_outsideTable_of_parts {b c : String} {x y : WithTop K} (hcosts : HasCosts g)
    (hp : p ∈ g.productions) (hrhs : p.production.rhs = [.nonterminal b, .nonterminal c])
    (hk : 0 < k) (hm : 0 < m) (hle : i + (k + m) ≤ n) (hx : IsAtMost
      (outsideTable g (insideTable g n) n) (p.production.lhs, i, k + m) (.ofTop x)) :
    (IsAtMost (insideTable g n) (c, m) (.ofTop y) → IsAtMost
      (outsideTable g (insideTable g n) n) (b, i, k) (.ofTop (x + costOf p + y))) ∧
    (IsAtMost (insideTable g n) (b, k) (.ofTop y) → IsAtMost
      (outsideTable g (insideTable g n) n) (c, i + k, m) (.ofTop (x + costOf p + y))) := by
  have hinside := hasCostsFrom_insideTable hcosts n
  obtain ⟨v, -, hv, hvx⟩ := (hasCostsFrom_outsideTable hcosts n).exists_le hx
  obtain ⟨hleft, hright⟩ := isAtMost_outsideTable (mem_binaryCosts hp hrhs) hk hm hle hv
  rw [hcosts p hp, Exact.add_ofTop] at hleft hright
  constructor
  · intro hy
    obtain ⟨w, -, hw, hwy⟩ := hinside.exists_le hy
    have hmost := hleft _ hw
    rw [Exact.add_ofTop] at hmost
    exact hmost.weaken (add_le_add (add_le_add_left hvx _) hwy)
  · intro hy
    obtain ⟨w, -, hw, hwy⟩ := hinside.exists_le hy
    have hmost := hright _ hw
    rw [Exact.add_ofTop] at hmost
    exact hmost.weaken (add_le_add (add_le_add_left hvx _) hwy)

/-- The cell of a name and a span has no more than the cost of any tree in which the name is open
there. The induction is on the number of productions, from the open node up. -/
theorem isAtMost_of_openParses (hnormal : g.unweighted.isChomskyNormal = true)
    (hcosts : HasCosts g) {t : Tree} {u v : List String}
    (h : g.OpenParses a [.nonterminal g.start] [t] u v ps) (hl : 0 < l)
    (hn : u.length + l + v.length = n) :
    IsAtMost (outsideTable g (insideTable g n) n) (a, u.length, l) (.ofTop (costsOf ps)) := by
  obtain ⟨size, hsize⟩ : ∃ size, ps.length = size := ⟨_, rfl⟩
  induction size using Nat.strong_induction_on generalizing a t u v ps l with
  | _ size ih =>
    rcases h.cases_chomsky hnormal with ⟨rfl, rfl, rfl, rfl⟩ |
      ⟨p, hp, c, s, r, v, w, qs, rs, hrhs, hopen, hr, hw, rfl, hperm⟩ |
      ⟨p, hp, b, s, r, u, w, qs, rs, hrhs, hopen, hr, hw, rfl, hperm⟩
    · obtain rfl : l = n := by simpa using hn
      exact ⟨_, getElem?_outsideTable_start g _ l, OrderedWeight.less_irrefl _⟩
    all_goals
      have hlength := hperm.length_eq
      rw [List.length_append, List.length_cons] at hlength
      rw [List.length_append] at hn
      have hpos := List.length_pos_iff.2 hw
      have hpart := isAtMost_of_parses hnormal hcosts hr hw (by omega : w.length ≤ n)
      rw [costsOf_of_perm hperm]
    · have hwhole := ih qs.length (by omega) hopen (by omega : 0 < l + w.length) (by omega) rfl
      exact (isAtMost_outsideTable_of_parts hcosts hp hrhs hl hpos (by omega) hwhole).1 hpart
    · have hwhole := ih qs.length (by omega) hopen (by omega : 0 < w.length + l) (by omega) rfl
      rw [List.length_append]
      exact (isAtMost_outsideTable_of_parts hcosts hp hrhs hpos hl (by omega) hwhole).2 hpart

lemma isAtMost_of_mem_outsideCosts {c : WithTop K} (hnormal : g.unweighted.isChomskyNormal = true)
    (hcosts : HasCosts g) (hl : 0 < l) (hc : c ∈ g.outsideCosts n a i l) :
    IsAtMost (outsideTable g (insideTable g n) n) (a, i, l) (.ofTop c) := by
  obtain ⟨t, u, v, ps, hopen, rfl, hn, rfl⟩ := hc
  exact isAtMost_of_openParses hnormal hcosts hopen hl hn

/-- The cell has the least of these costs. -/
theorem isLeast_outsideTable (hnormal : g.unweighted.isChomskyNormal = true) (hcosts : HasCosts g)
    (hl : 0 < l) :
    ((outsideTable g (insideTable g n) n)[(a, i, l)]?.isSome ↔ (g.outsideCosts n a i l).Nonempty) ∧
      ∀ v, (outsideTable g (insideTable g n) n)[(a, i, l)]? = some v ↔
        ∃ c, v = .ofTop c ∧ IsLeast (g.outsideCosts n a i l) c :=
  (hasCostsFrom_outsideTable hcosts n).isLeast (a, i, l) fun _ =>
    isAtMost_of_mem_outsideCosts hnormal hcosts hl

/-! ### Estimates -/

/-- A step of the loops for the inside costs reads two cells, and finds both as they are at the
end. -/
lemma getElem?_parts_of_findsInside {x : BinaryCost (Exact K)} {table : InsideTable (Exact K)}
    (h : FindsInside g n l x k table) :
    table[(x.left, k)]? = (insideTable g n)[(x.left, k)]? ∧
      table[(x.right, l - k)]? = (insideTable g n)[(x.right, l - k)]? := by
  have hk : k ∈ firstLengths l := by
    obtain ⟨_, _, -, -, hcomes⟩ := h
    exact hcomes.mem
  obtain ⟨hpos, hlt⟩ := mem_firstLengths.1 hk
  exact ⟨getElem?_of_findsInside h hlt _, getElem?_of_findsInside h (by omega) _⟩

/-- Estimates are the least costs. For a grammar in Chomsky normal form, whose productions have
costs that may be infinite, and for every length of inputs: over at most as many tokens, a name has
an inside estimate iff it derives a word of that length, and the estimate is the least cost of such a
parse. Around a name over at least one token, there is an outside estimate iff a tree of the start
symbol over the whole length has the name open there, and the estimate is the least cost of the
productions in such a tree. So it is not greater than the cost around the name in any sentence. And
when a step of the loops reads a cell, that is as it is at the end. -/
theorem Estimates.ofGrammar_exact (hnormal : g.unweighted.isChomskyNormal = true)
    (hcosts : HasCosts g) (n : ℕ) :
    (∀ name l, 0 < l → l ≤ n →
      (((ofGrammar g n).inside? name l).isSome ↔
        ∃ w, w.length = l ∧ g.unweighted.Derives [.nonterminal name] (word w)) ∧
      ∀ v, (ofGrammar g n).inside? name l = some v ↔
        ∃ c, v = .ofTop c ∧ IsLeast (g.insideCosts name l) c) ∧
    (∀ name i l, 0 < l → i + l ≤ n →
      (((ofGrammar g n).outside? name i l).isSome ↔
        ∃ t u v ps, g.OpenParses name [.nonterminal g.start] [t] u v ps ∧ u.length = i ∧
          i + l + v.length = n) ∧
      ∀ v, (ofGrammar g n).outside? name i l = some v ↔
        ∃ c, v = .ofTop c ∧ IsLeast (g.outsideCosts n name i l) c) ∧
    (∀ (tokens : List String) name i l t ps, tokens.length = n → 0 < l → i + l ≤ n →
      g.OpenParses name [.nonterminal g.start] [t] (span tokens 0 i) (tokens.drop (i + l)) ps →
        ∃ c, (ofGrammar g n).outside? name i l = some (.ofTop c) ∧ c ≤ costsOf ps) ∧
    (∀ l x k table, FindsInside g n l x k table →
      table[(x.left, k)]? = (insideTable g n)[(x.left, k)]? ∧
        table[(x.right, l - k)]? = (insideTable g n)[(x.right, l - k)]?) ∧
    ∀ l i x table, FindsOutside g (insideTable g n) n l i x table →
      table[(x.lhs, i, l)]? = (outsideTable g (insideTable g n) n)[(x.lhs, i, l)]? := by
  have houtside : ∀ {name i l}, i + l ≤ n → (ofGrammar g n).outside? name i l =
      (outsideTable g (insideTable g n) n)[(name, i, l)]? := fun hle => if_pos hle
  refine ⟨fun name l hl hle => ?_, fun name i l hl hle => ?_,
    fun tokens name i l t ps hn hl hle hopen => ?_,
    fun l x k table => getElem?_parts_of_findsInside,
    fun l i x table h => getElem?_of_findsOutside h le_rfl _ _⟩
  · obtain ⟨hsome, hleast⟩ := isLeast_insideTable hnormal hcosts hl hle
    exact ⟨hsome.trans insideCosts_nonempty_iff, hleast⟩
  · obtain ⟨hsome, hleast⟩ := isLeast_outsideTable hnormal hcosts hl
    rw [houtside hle]
    refine ⟨hsome.trans ⟨?_, ?_⟩, hleast⟩
    · rintro ⟨c, t, u, v, ps, hopen, hi, hn, -⟩
      exact ⟨t, u, v, ps, hopen, hi, hn⟩
    · rintro ⟨t, u, v, ps, hopen, hi, hn⟩
      exact ⟨_, t, u, v, ps, hopen, hi, hn, rfl⟩
  · have hmem : costsOf ps ∈ g.outsideCosts n name i l := by
      refine ⟨t, _, _, ps, hopen, ?_, ?_, rfl⟩
      · rw [length_span (by omega), Nat.sub_zero]
      · rw [List.length_drop]
        omega
    obtain ⟨c, -, hc, hc'⟩ := (hasCostsFrom_outsideTable hcosts n).exists_le
      (isAtMost_of_mem_outsideCosts hnormal hcosts hl hmem)
    exact ⟨c, (houtside hle).trans hc, hc'⟩

/-- Around the first way to read the letter, the least cost is infinite; around the second, it is
zero. -/
theorem Estimates.ofGrammar_exact_hiding :
    (readingsGrammar 0 1).unweighted.isChomskyNormal = true ∧ HasCosts (readingsGrammar 0 1) ∧
      IsLeast ((readingsGrammar 0 1).outsideCosts 2 "B" 0 1) ⊤ ∧
      IsLeast ((readingsGrammar 0 1).outsideCosts 2 "C" 0 1) 0 := by
  have hnormal : (readingsGrammar 0 1).unweighted.isChomskyNormal = true := by decide
  have hcosts : HasCosts (readingsGrammar 0 1) := fun p hp => Exact.cost_eq_ofTop (by
    simp only [readingsGrammar, List.mem_cons, List.not_mem_nil, or_false] at hp
    rcases hp with rfl | rfl | rfl | rfl | rfl <;> simp [Weight.isProbability])
  obtain ⟨-, houtside, -⟩ := ofGrammar_exact hnormal hcosts 2
  obtain ⟨hB, -, hC⟩ := outside?_hiding
  obtain ⟨c, hc, hleast⟩ := ((houtside "B" 0 1 one_pos one_le_two).2 _).1 hB
  obtain ⟨d, hd, hleast'⟩ := ((houtside "C" 0 1 one_pos one_le_two).2 _).1 hC
  obtain rfl : ⊤ = c := (congrArg Exact.toTop hc).trans (Exact.toTop_ofTop c)
  obtain rfl : 0 = d := (congrArg Exact.toTop hd).trans (Exact.toTop_ofTop d)
  exact ⟨hnormal, hcosts, hleast, hleast'⟩

end DeductiveParsing.Weighted
