/-
Where there are estimates of costs, which only depends on lengths.

* `mem_insideTable_iff`: a name has a cost over a number of tokens iff it derives some word of that
  length;
* `ContextFree.Grammar.HasRoom`: words around a name leave room for it in some inputs of a length;
* `hasRoom_iff_exists_uses`: then the name stands there in a parse of some such input;
* `Estimates.isSome_outside?_iff`: the spans with an estimate are those that have room.
-/
import DeductiveParsing.Proofs.Weighted.Estimates

namespace DeductiveParsing

open ContextFree (word word_append)

namespace ContextFree.Grammar

variable {g : ContextFree.Grammar} {p : Production} {a b c : String} {w : List String}
  {i k l m n : ℕ}

/-! ### Room for a name -/

/-- Whether the words that may stand around a name leave room for it over the `l` tokens behind the
first `i`, in inputs of `n` tokens. -/
def HasRoom (g : ContextFree.Grammar) (n : ℕ) (name : String) (i l : ℕ) : Prop :=
  ∃ u v : List String, u.length = i ∧ i + l + v.length = n ∧ g.Surrounds u name v

/-- There is room for the start symbol over the whole input. -/
lemma hasRoom_start (g : ContextFree.Grammar) (n : ℕ) : g.HasRoom n g.start 0 n :=
  ⟨[], [], rfl, by simp, .start⟩

/-- Where there is room for two parts in a row, there is room for the first one of them. -/
lemma HasRoom.left (hp : p ∈ g.productions) (hrhs : p.rhs = [.nonterminal b, .nonterminal c])
    (h : g.HasRoom n p.lhs i (k + m)) (hw : g.Derives [.nonterminal c] (word w))
    (hm : w.length = m) : g.HasRoom n b i k := by
  obtain ⟨u, v, hu, hn, hsurrounds⟩ := h
  have hsplit : p.rhs = [] ++ .nonterminal b :: [.nonterminal c] := hrhs
  have hnothing : g.Derives [] (word []) := .refl _
  have hstep := Surrounds.step hp hsplit hsurrounds hnothing hw
  rw [List.append_nil] at hstep
  exact ⟨u, w ++ v, hu, by rw [List.length_append]; omega, hstep⟩

/-- And there is room for the second one. -/
lemma HasRoom.right (hp : p ∈ g.productions) (hrhs : p.rhs = [.nonterminal b, .nonterminal c])
    (h : g.HasRoom n p.lhs i (k + m)) (hw : g.Derives [.nonterminal b] (word w))
    (hk : w.length = k) : g.HasRoom n c (i + k) m := by
  obtain ⟨u, v, hu, hn, hsurrounds⟩ := h
  have hsplit : p.rhs = [.nonterminal b] ++ .nonterminal c :: [] := hrhs
  have hnothing : g.Derives [] (word []) := .refl _
  have hstep := Surrounds.step hp hsplit hsurrounds hw hnothing
  exact ⟨u ++ w, v, by rw [List.length_append, hu, hk], by omega, hstep⟩

/-- Whether a parse of an input has a name over the tokens from place `i` up to place `j`. -/
def Uses (g : ContextFree.Grammar) (tokens : List String) (name : String) (i j : ℕ) : Prop :=
  g.Derives [.nonterminal g.start]
      (word (span tokens 0 i) ++ .nonterminal name :: word (tokens.drop j)) ∧
    g.Derives [.nonterminal name] (word (span tokens i j))

/-- There is room for a name that derives a word of the length if a parse of some input has it
there. -/
lemma hasRoom_iff_exists_uses (hw : g.Derives [.nonterminal a] (word w))
    (hle : i + w.length ≤ n) : g.HasRoom n a i w.length ↔
      ∃ others, others.length = n ∧ g.Uses others a i (i + w.length) := by
  constructor
  · rintro ⟨u, v, rfl, hn, h⟩
    have hfirst : span (u ++ (w ++ v)) 0 u.length = u := by simp [span]
    have hmiddle : span (u ++ (w ++ v)) u.length (u.length + w.length) = w := by
      simp [span, List.take_append]
    have hrest : (u ++ (w ++ v)).drop (u.length + w.length) = v := by simp [List.drop_append]
    refine ⟨u ++ (w ++ v), by simp only [List.length_append]; omega, ?_, ?_⟩
    · rw [hfirst, hrest]
      exact surrounds_iff.1 h
    · rwa [hmiddle]
  · rintro ⟨others, rfl, h, -⟩
    refine ⟨_, _, ?_, ?_, surrounds_iff.2 h⟩
    · rw [length_span (by omega), Nat.sub_zero]
    · rw [List.length_drop]
      omega

/-! ### Chomsky normal form -/

/-- In Chomsky normal form, a nonterminal on a right-hand side is the first or the second one of a
pair. -/
lemma rhs_cases (hg : g.isChomskyNormal = true) (hp : p ∈ g.productions)
    {before after : List Symbol} (hrhs : p.rhs = before ++ .nonterminal b :: after) :
    (∃ c, before = [] ∧ after = [.nonterminal c]) ∨
      ∃ c, before = [.nonterminal c] ∧ after = [] := by
  have hlength : p.rhs.length = before.length + (after.length + 1) := by simp [hrhs]
  have hcases := List.all_eq_true.1 hg p hp
  simp only [Bool.or_eq_true, toleratesEmpty, Bool.and_eq_true] at hcases
  rcases hcases with (hbinary | hlexical) | ⟨⟨hempty, -⟩, -⟩
  · obtain ⟨c, d, hpair⟩ := Cyk.rhs_of_isBinary hbinary
    rw [hpair] at hrhs
    rcases before with _ | ⟨_, _ | ⟨_, _⟩⟩
    · obtain ⟨-, rfl⟩ := List.cons.inj hrhs
      exact Or.inl ⟨d, rfl, rfl⟩
    · obtain ⟨rfl, hrest⟩ := List.cons.inj hrhs
      obtain ⟨-, rfl⟩ := List.cons.inj hrest
      exact Or.inr ⟨c, rfl, rfl⟩
    · simp only [hpair, List.length_cons, List.length_nil] at hlength
      omega
  · obtain ⟨d, hsingle⟩ := Cyk.rhs_of_isLexical hlexical
    rw [hsingle] at hrhs
    cases before <;> simp at hrhs
  · simp [List.isEmpty_iff.1 hempty] at hlength

end ContextFree.Grammar

namespace Weighted

open ContextFree.Grammar (HasRoom Surrounds derives_of_production rhs_cases ne_nil_of_mem_rhs
  isTwoForm_of_isChomskyNormal eq_nil_of_derives hasRoom_start)

variable {W : Type} [Weight W] {g : Grammar W} {a : String} {i l n : ℕ}

/-! ### Inside -/

/-- A name with a cost over a number of tokens derives a word of that length. -/
lemma exists_of_mem_insideTable (hn : 0 < n) (h : (a, l) ∈ insideTable g n) : 0 < l ∧ l ≤ n ∧
    ∃ w, w.length = l ∧ g.unweighted.Derives [.nonterminal a] (word w) := by
  revert a l
  refine insideTable_induction (P := fun table => ∀ {a l}, (a, l) ∈ table → 0 < l ∧ l ≤ n ∧
    ∃ w, w.length = l ∧ g.unweighted.Derives [.nonterminal a] (word w)) (fun h => ?_)
      (fun table h p hp hlexical a l hmem => ?_) fun table h p hp b c hrhs k m hle v w hv hw a l
        hmem => ?_
  · simp at h
  · rcases mem_relax.1 hmem with heq | hmem
    · cases heq
      obtain ⟨b, hrhs⟩ := Cyk.rhs_of_isLexical hlexical
      exact ⟨Nat.one_pos, hn, [b], rfl,
        derives_of_production (Grammar.mem_unweighted hp) (hrhs ▸ .refl _)⟩
    · exact h hmem
  · rcases mem_relax.1 hmem with heq | hmem
    · cases heq
      obtain ⟨hk, -, u, rfl, hu⟩ :=
        h (Std.HashMap.isSome_getElem?_iff_mem.1 (Option.isSome_of_eq_some hv))
      obtain ⟨-, -, u', rfl, hu'⟩ :=
        h (Std.HashMap.isSome_getElem?_iff_mem.1 (Option.isSome_of_eq_some hw))
      refine ⟨by omega, hle, u ++ u', List.length_append, ?_⟩
      rw [word_append]
      exact derives_of_production (Grammar.mem_unweighted hp) (hrhs ▸ hu.append hu')
    · exact h hmem

/-- A name has a cost over a number of tokens iff it derives some word of that length. -/
theorem mem_insideTable_iff (hnormal : g.unweighted.isChomskyNormal = true) (hn : 0 < n) :
    (a, l) ∈ insideTable g n ↔ 0 < l ∧ l ≤ n ∧
      ∃ w, w.length = l ∧ g.unweighted.Derives [.nonterminal a] (word w) := by
  refine ⟨exists_of_mem_insideTable hn, ?_⟩
  rintro ⟨hl, hle, w, rfl, hw⟩
  obtain ⟨t, ps, hparses⟩ := Grammar.exists_parses_of_derives hw
  exact mem_insideTable hnormal hparses (List.length_pos_iff.1 hl) hle

/-! ### Outside -/

/-- Where there is a cost around a name, there is room for it. -/
lemma hasRoom_of_mem_outsideTable (h : (a, i, l) ∈ outsideTable g (insideTable g n) n) :
    g.unweighted.HasRoom n a i l := by
  revert a i l
  refine outsideTable_induction (P := fun table => ∀ {a i l}, (a, i, l) ∈ table →
    g.unweighted.HasRoom n a i l) (fun h => ?_) fun table₀ table h₀ h p hp b c hrhs i k m hk hm hle
      out hout => ⟨fun v hv a' i' l' hmem => ?_, fun v hv a' i' l' hmem => ?_⟩
  · simp only [Std.HashMap.mem_insert, beq_iff_eq, Prod.mk.injEq, Std.HashMap.not_mem_empty,
      or_false] at h
    obtain ⟨rfl, rfl, rfl⟩ := h
    exact hasRoom_start _ _
  all_goals
    have hroom := h₀ (Std.HashMap.isSome_getElem?_iff_mem.1 (Option.isSome_of_eq_some hout))
    obtain ⟨-, -, w, hw, hderives⟩ := exists_of_mem_insideTable (by omega)
      (Std.HashMap.isSome_getElem?_iff_mem.1 (Option.isSome_of_eq_some hv))
    refine (mem_relax.1 hmem).elim (fun heq => ?_) h
    cases heq
  · exact hroom.left (Grammar.mem_unweighted hp) hrhs hderives hw
  · exact hroom.right (Grammar.mem_unweighted hp) hrhs hderives hw

/-- Where there is room for a name that covers a token, there is a cost around it. The induction is
on what surrounds it, from the start symbol down. -/
lemma mem_outsideTable_of_surrounds (hnormal : g.unweighted.isChomskyNormal = true)
    {u v : List String} (h : g.unweighted.Surrounds u a v) (hl : 0 < l)
    (hn : u.length + l + v.length = n) :
    (a, u.length, l) ∈ outsideTable g (insideTable g n) n := by
  have htwo := isTwoForm_of_isChomskyNormal hnormal
  induction h generalizing l with
  | start =>
      obtain rfl : l = n := by simpa using hn
      exact Std.HashMap.isSome_getElem?_iff_mem.1
        (Option.isSome_of_eq_some (getElem?_outsideTable_start g _ l))
  | @step u u' v v' p before after b hp hrhs _ hu hv ih =>
      obtain ⟨q, hq, rfl⟩ := List.mem_map.1 hp
      rw [List.length_append, List.length_append] at hn
      rcases rhs_cases hnormal hp hrhs with ⟨c, rfl, rfl⟩ | ⟨c, rfl, rfl⟩
      · obtain rfl := eq_nil_of_derives hu
        rw [List.length_nil] at hn
        have hpos := List.length_pos_iff.2 (ne_nil_of_mem_rhs htwo hp (a := c) (by simp [hrhs]) hv)
        have hwhole := ih (l := l + v'.length) (by omega) (by omega)
        rw [List.append_nil]
        exact (mem_outsideTable_of_binary hq hrhs hl hpos (by omega) hwhole).1
          ((mem_insideTable_iff hnormal (by omega)).2 ⟨hpos, by omega, v', rfl, hv⟩)
      · obtain rfl := eq_nil_of_derives hv
        rw [List.length_nil] at hn
        have hpos := List.length_pos_iff.2 (ne_nil_of_mem_rhs htwo hp (a := c) (by simp [hrhs]) hu)
        have hwhole := ih (l := u'.length + l) (by omega) (by omega)
        rw [List.length_append]
        exact (mem_outsideTable_of_binary hq hrhs hpos hl (by omega) hwhole).2
          ((mem_insideTable_iff hnormal (by omega)).2 ⟨hpos, by omega, u', rfl, hu⟩)

/-- The spans of at least one token with an estimate are those that have room. -/
theorem Estimates.isSome_outside?_iff (hnormal : g.unweighted.isChomskyNormal = true) (hl : 0 < l) :
    ((ofGrammar g n).outside? a i l).isSome ↔ g.unweighted.HasRoom n a i l := by
  rw [isSome_outside?]
  constructor
  · rintro ⟨-, h⟩
    exact hasRoom_of_mem_outsideTable h
  · rintro ⟨u, v, rfl, hn, h⟩
    exact ⟨by omega, mem_outsideTable_of_surrounds hnormal h hl hn⟩

/-- Likewise for the empty span of an empty input, if the name derives that. -/
lemma Estimates.isSome_outside?_iff_of_derives (hnormal : g.unweighted.isChomskyNormal = true)
    {w : List String} (hw : g.unweighted.Derives [.nonterminal a] (word w))
    (hle : i + w.length ≤ n) (hpos : 0 < w.length ∨ n = 0) :
    ((ofGrammar g n).outside? a i w.length).isSome ↔ g.unweighted.HasRoom n a i w.length := by
  rcases hpos with hpos | rfl
  · exact isSome_outside?_iff hnormal hpos
  · obtain ⟨rfl, hnil⟩ : i = 0 ∧ w.length = 0 := by omega
    obtain rfl := List.length_eq_zero_iff.1 hnil
    -- only the start symbol derives the empty word
    obtain ⟨p, hp, heq⟩ := List.mem_map.1 ((Grammar.derives_nil_iff hnormal).1 hw)
    obtain rfl : a = g.start := by
      have hstart := Grammar.lhs_eq_start_of_empty hnormal hp (by rw [heq])
      rwa [heq] at hstart
    exact iff_of_true (Option.isSome_of_eq_some (outside?_start g 0)) (hasRoom_start _ 0)

end Weighted

end DeductiveParsing
