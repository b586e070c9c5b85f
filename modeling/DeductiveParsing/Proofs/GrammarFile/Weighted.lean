/-
What the reader of weighted grammars makes sure of.

* `readWeighted_eq_ok`: what a weighted production is read from;
* `exists_of_readWeightedGrammar`: productions are read one by one, each with a probability;
* `isWellFormed_of_readWeightedGrammar`: without the weights, every grammar that is read is
  well-formed.
-/
import DeductiveParsing.Proofs.GrammarFile.ContextFree
import DeductiveParsing.Proofs.Weight.Exact

namespace DeductiveParsing.GrammarFile

open Deduction (bind_eq_ok exists_of_mem_mapM)

variable {W : Type} [Weight W] {file : String} {g : Weighted.Grammar W}

/-- A weighted production is read from a probability and a production. -/
lemma readWeighted_eq_ok {line : ℕ} {nonterminals : List String} {cs : List Char}
    {p : Weighted.Production W} :
    readWeighted line nonterminals cs = .ok p ↔
      ∃ name value, splitName? cs = some (name, value) ∧
        (Weight.read? name : Option W).filter Weight.isProbability = some p.weight ∧
        readProduction line nonterminals value = .ok p.production := by
  constructor
  · intro h
    rw [readWeighted] at h
    split at h
    · cases h
    next name value hsplit =>
      split at h
      · cases h
      next weight hweight =>
        cases hread : readProduction line nonterminals value with
        | error fault =>
            rw [hread] at h
            cases h
        | ok q =>
            rw [hread] at h
            obtain rfl := Except.ok.inj h
            exact ⟨name, value, hsplit, hweight, hread⟩
  · rintro ⟨name, value, hsplit, hweight, hread⟩
    rw [readWeighted, hsplit]
    dsimp only
    rw [hweight, hread]
    rfl

/-- The productions of a grammar that is read are read one by one, each with a probability. -/
lemma exists_of_readWeightedGrammar (h : readWeightedGrammar file = .ok g) :
    ∀ p ∈ g.productions, Weight.isProbability p.weight = true ∧
      ∃ line cs, readProduction line g.nonterminals cs = .ok p.production := by
  obtain ⟨sections, -, h⟩ := bind_eq_ok.1 h
  obtain ⟨nonterminals, -, h⟩ := bind_eq_ok.1 h
  obtain ⟨terminals, -, h⟩ := bind_eq_ok.1 h
  obtain ⟨start, -, h⟩ := bind_eq_ok.1 h
  obtain ⟨s, -, h⟩ := bind_eq_ok.1 h
  obtain ⟨productions, hproductions, h⟩ := bind_eq_ok.1 h
  obtain rfl := Except.ok.inj h
  intro p hp
  obtain ⟨entry, -, hread⟩ := exists_of_mem_mapM hproductions p hp
  obtain ⟨name, value, -, hweight, hproduction⟩ := readWeighted_eq_ok.1 hread
  exact ⟨(Option.filter_eq_some_iff.1 hweight).2, _, _, hproduction⟩

/-- A production is read with its probability, if that is a numeral. -/
lemma readWeighted_of_readNumeral? {K : Type} [Numbers K] {line : ℕ} {nonterminals : List String}
    {cs u v : List Char} {n : Decimal.Numeral} {x : K} {p : Production}
    (hsplit : splitName? cs = some (u, v)) (hsign : Decimal.takeSign u = (false, u))
    (hn : Decimal.readNumeral? u = some n) (hx : n.digits * 10 ^ n.exponent = x) (h0 : 0 ≤ x)
    (h1 : x ≤ 1) (hp : readProduction line nonterminals v = .ok p) :
    readWeighted line nonterminals cs = .ok ⟨p, Exact.number x⟩ := by
  have hweight : Weight.read? u = some (Exact.number x) := by
    rw [Exact.read?_of_readNumeral? hsign hn, hx]
  have hprobability : Weight.isProbability (Exact.number x) = true := by
    simp [Weight.isProbability, h0, h1]
  simp [readWeighted, hsplit, hweight, Option.filter, hprobability, hp, Except.map]

lemma readWeighted_one {K : Type} [Numbers K] {line : ℕ} {nonterminals : List String}
    {cs v : List Char} {p : Production} (hsplit : splitName? cs = some ("1.0".toList, v))
    (hp : readProduction line nonterminals v = .ok p) :
    readWeighted line nonterminals cs = .ok ⟨p, Exact.number (1 : K)⟩ := by
  refine readWeighted_of_readNumeral? (n := ⟨10, -1⟩) hsplit ?_ ?_ ?_ zero_le_one le_rfl hp
  · cbv
  · cbv
  · norm_num

lemma readWeighted_zero {K : Type} [Numbers K] {line : ℕ} {nonterminals : List String}
    {cs v : List Char} {p : Production} (hsplit : splitName? cs = some ("0.0".toList, v))
    (hp : readProduction line nonterminals v = .ok p) :
    readWeighted line nonterminals cs = .ok ⟨p, Exact.number (0 : K)⟩ := by
  refine readWeighted_of_readNumeral? (n := ⟨0, -1⟩) hsplit ?_ ?_ ?_ le_rfl zero_le_one hp
  · cbv
  · cbv
  · norm_num

/-- Without the weights, every grammar that is read is well-formed. -/
theorem isWellFormed_of_readWeightedGrammar (h : readWeightedGrammar file = .ok g) :
    g.unweighted.IsWellFormed := by
  have hread := exists_of_readWeightedGrammar h
  refine isWellFormed_of_readProduction fun p hp => ?_
  obtain ⟨q, hq, rfl⟩ := List.mem_map.1 hp
  exact (hread q hq).2

/-- A file in which an unlikely letter can be read as a likely one. -/
def doubtfulFile : String :=
  "N = \x7b\"S\", \"A\", \"B\"\x7d\nT = \x7b\"a\"\x7d\nS = \"S\"\n" ++
    "P = \x7b\"0.5 : S -> A A\", \"0.5 : S -> B A\", \"0.2 : A -> a\", \"1.0 : B -> a\"\x7d\n"

/-- The grammar in that file. -/
def doubtfulGrammar : Weighted.Grammar (Exact ℚ) :=
  ⟨["S", "A", "B"], ["a"], "S", [⟨⟨"S", [.nonterminal "A", .nonterminal "A"]⟩, .number (1 / 2)⟩,
    ⟨⟨"S", [.nonterminal "B", .nonterminal "A"]⟩, .number (1 / 2)⟩,
    ⟨⟨"A", [.terminal "a"]⟩, .number (1 / 5)⟩, ⟨⟨"B", [.terminal "a"]⟩, .number 1⟩]⟩

lemma read_doubtfulFile : readWeightedGrammar doubtfulFile = .ok doubtfulGrammar := by
  have hAA : readWeighted 4 ["S", "A", "B"] "0.5 : S -> A A".toList =
      .ok ⟨⟨"S", [.nonterminal "A", .nonterminal "A"]⟩, Exact.number (1 / 2 : ℚ)⟩ := by
    refine readWeighted_of_readNumeral? (u := "0.5".toList) (v := "S -> A A".toList) (n := ⟨5, -1⟩)
      ?_ ?_ ?_ (by norm_num) (by norm_num) (by norm_num) ?_ <;> cbv
  have hBA : readWeighted 4 ["S", "A", "B"] "0.5 : S -> B A".toList =
      .ok ⟨⟨"S", [.nonterminal "B", .nonterminal "A"]⟩, Exact.number (1 / 2 : ℚ)⟩ := by
    refine readWeighted_of_readNumeral? (u := "0.5".toList) (v := "S -> B A".toList) (n := ⟨5, -1⟩)
      ?_ ?_ ?_ (by norm_num) (by norm_num) (by norm_num) ?_ <;> cbv
  have hA : readWeighted 4 ["S", "A", "B"] "0.2 : A -> a".toList =
      .ok ⟨⟨"A", [.terminal "a"]⟩, Exact.number (1 / 5 : ℚ)⟩ := by
    refine readWeighted_of_readNumeral? (u := "0.2".toList) (v := "A -> a".toList) (n := ⟨2, -1⟩)
      ?_ ?_ ?_ (by norm_num) (by norm_num) (by norm_num) ?_ <;> cbv
  have hB : readWeighted 4 ["S", "A", "B"] "1.0 : B -> a".toList =
      .ok ⟨⟨"B", [.terminal "a"]⟩, Exact.number (1 : ℚ)⟩ := by
    refine readWeighted_of_readNumeral? (u := "1.0".toList) (v := "B -> a".toList) (n := ⟨10, -1⟩)
      ?_ ?_ ?_ (by norm_num) (by norm_num) (by norm_num) ?_ <;> cbv
  have hsections : readSections ['N', 'T', 'S', 'P'] doubtfulFile = .ok
      [('N', ⟨1, ["S".toList, "A".toList, "B".toList]⟩), ('T', ⟨2, ["a".toList]⟩),
        ('S', ⟨3, ["S".toList]⟩), ('P', ⟨4, ["0.5 : S -> A A".toList, "0.5 : S -> B A".toList,
          "0.2 : A -> a".toList, "1.0 : B -> a".toList]⟩)] := by decide +kernel
  rw [readWeightedGrammar, hsections]
  exact bind_eq_ok.2 ⟨_, rfl, bind_eq_ok.2 ⟨["S", "A", "B"], rfl, bind_eq_ok.2 ⟨["a"], rfl,
    bind_eq_ok.2 ⟨"S", rfl, bind_eq_ok.2 ⟨_, rfl, bind_eq_ok.2 ⟨doubtfulGrammar.productions,
      by simp only [List.mapM_cons, hAA, hBA, hA, hB, List.mapM_nil]; rfl, rfl⟩⟩⟩⟩⟩⟩

end DeductiveParsing.GrammarFile
