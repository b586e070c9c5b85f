/-
Beginnings and followers of names are found in sweeps over the productions.

* `firstRule`, `followRules`: what a production says about the beginnings of its left-hand side, and
  about the followers of the names in it;
* `mem_iff_of_isSettled_firstRule`, `mem_iff_of_isSettled_followRules`: settled sweeps have found the
  beginnings and the followers;
* `firstOf_and_followOf_exact`: beginnings and followers are exact, and the sweeps end with them.
-/
import DeductiveParsing.Proofs.Closure.Sweeps
import DeductiveParsing.Proofs.Lr.Follow

namespace DeductiveParsing.Lr

open ContextFree Grammar Relation

variable {g : Grammar} {p : Production} {symbols : List Symbol} {x : Symbol} {a b c : String}

/-! ### Beginnings in sweeps -/

/-- The terminals with which a sequence begins, as far as those of names are known. -/
def firstAmong (g : Grammar) (first : Finset (String × String)) (symbols : List Symbol) :
    Finset String :=
  (openers g.nullables symbols).toFinset.biUnion fun
    | .terminal a => {a}
    | .nonterminal b => (first.filter (·.1 = b)).image Prod.snd

/-- A production gives its left-hand side the terminals with which its right-hand side begins. -/
def firstRule (g : Grammar) (p : Production) (first : Finset (String × String)) :
    Finset (String × String) := (firstAmong g first p.rhs).image (p.lhs, ·)

variable {first follow : Finset (String × String)}

lemma mem_firstAmong :
    a ∈ firstAmong g first symbols ↔
      g.Exposes symbols (.terminal a) ∨
        ∃ b, g.Exposes symbols (.nonterminal b) ∧ (b, a) ∈ first := by
  simp only [firstAmong, Finset.mem_biUnion, List.mem_toFinset, mem_openers]
  constructor
  · rintro ⟨x, hx, ha⟩
    cases x with
    | terminal c =>
        obtain rfl := Finset.mem_singleton.1 ha
        exact Or.inl hx
    | nonterminal c => exact Or.inr ⟨c, hx, by simpa using ha⟩
  · rintro (hx | ⟨b, hx, ha⟩)
    · exact ⟨_, hx, Finset.mem_singleton_self a⟩
    · exact ⟨_, hx, by simpa using ha⟩

lemma mem_image_mk {s : Finset String} : (b, a) ∈ s.image (c, ·) ↔ b = c ∧ a ∈ s := by
  simp [eq_comm, and_comm]

lemma mem_firstRule : (b, a) ∈ firstRule g p first ↔ b = p.lhs ∧ a ∈ firstAmong g first p.rhs :=
  mem_image_mk

/-- If names begin with the terminals known of them, sequences do too. -/
lemma exists_derives_of_mem_firstAmong
    (hfirst : ∀ e ∈ first, ∃ rest, g.Derives [.nonterminal e.1] (.terminal e.2 :: rest))
    (ha : a ∈ firstAmong g first symbols) : ∃ rest, g.Derives symbols (.terminal a :: rest) := by
  rcases mem_firstAmong.1 ha with hexposes | ⟨b, hexposes, hb⟩
  · exact hexposes.exists_derives
  · obtain ⟨rest, hrest⟩ := hfirst _ hb
    obtain ⟨x, hx, hreach⟩ := exists_derives_cons_iff.1 ⟨rest, hrest⟩
    obtain rfl := exposes_singleton_iff.1 hx
    exact exists_derives_cons_iff.2 ⟨_, hexposes, hreach⟩

/-- A sequence is known to begin with a terminal if it exposes the terminal itself, or a name that
is known to begin with it. -/
lemma mem_firstAmong_of_exposes (hexposes : g.Exposes symbols x)
    (hreach : ReflTransGen g.Opens x (.terminal a))
    (hx : ∀ b, x = .nonterminal b → (b, a) ∈ first) : a ∈ firstAmong g first symbols := by
  cases x with
  | terminal c =>
      rcases ReflTransGen.cases_head hreach with heq | ⟨y, ⟨p, -, hlhs, -⟩, -⟩
      · exact mem_firstAmong.2 (Or.inl (heq ▸ hexposes))
      · cases hlhs
  | nonterminal b => exact mem_firstAmong.2 (Or.inr ⟨b, hexposes, hx b rfl⟩)

/-- When sweeps over the productions have settled, the known terminals are those with which names
begin. -/
lemma mem_iff_of_isSettled_firstRule
    (h : IsSettled (g.productions.map (firstRule g)) ∅ first) :
    (b, a) ∈ first ↔ ∃ rest, g.Derives [.nonterminal b] (.terminal a :: rest) := by
  constructor
  · refine h.induction (fun e => ∃ rest, g.Derives [.nonterminal e.1] (.terminal e.2 :: rest))
      (fun e he => absurd he (Finset.notMem_empty e)) ?_ (b, a)
    rintro rule hrule facts hfacts ⟨c, d⟩ he
    obtain ⟨p, hp, rfl⟩ := List.mem_map.1 hrule
    obtain ⟨rfl, hd⟩ := mem_firstRule.1 he
    obtain ⟨rest, hrest⟩ := exists_derives_of_mem_firstAmong hfacts hd
    exact ⟨rest, derives_of_production hp hrest⟩
  · intro hderives
    obtain ⟨x, hexposes, hreach⟩ := exists_derives_cons_iff.1 hderives
    -- along the productions that open with one symbol after another, from the last to the first
    suffices hall : ∀ c, x = .nonterminal c → (c, a) ∈ first from
      hall b (exposes_singleton_iff.1 hexposes).symm
    clear hderives hexposes
    induction hreach using ReflTransGen.head_induction_on with
    | refl => exact fun c hc => nomatch hc
    | head hopens hreach ih =>
        obtain ⟨p, hp, rfl, hexposes⟩ := hopens
        intro c heq
        obtain rfl := Symbol.nonterminal.inj heq
        refine h.closed _ (List.mem_map_of_mem hp) (mem_firstRule.2 ⟨rfl, ?_⟩)
        exact mem_firstAmong_of_exposes hexposes hreach ih

/-- If the terminals are known with which names begin, so are those of sequences. -/
lemma mem_firstAmong_iff
    (hfirst : ∀ b a, (b, a) ∈ first ↔ ∃ rest, g.Derives [.nonterminal b] (.terminal a :: rest)) :
    a ∈ firstAmong g first symbols ↔ ∃ rest, g.Derives symbols (.terminal a :: rest) := by
  refine ⟨exists_derives_of_mem_firstAmong fun e => (hfirst e.1 e.2).1, fun h => ?_⟩
  obtain ⟨x, hexposes, hreach⟩ := exists_derives_cons_iff.1 h
  refine mem_firstAmong_of_exposes hexposes hreach ?_
  rintro b rfl
  exact (hfirst b a).2 (exists_derives_cons_iff.2 ⟨_, exposes_singleton_iff.2 rfl, hreach⟩)

/-! ### Followers in sweeps -/

/-- A name in a production gets the terminals with which what stands behind it begins and, if that
can be erased, what follows the left-hand side. -/
def followRule (g : Grammar) (first : Finset (String × String)) (p : Production)
    (o : String × List Symbol) (follow : Finset (String × String)) : Finset (String × String) :=
  let behind := if allNullable g.nullables o.2 then (follow.filter (·.1 = p.lhs)).image Prod.snd
    else ∅
  (firstAmong g first o.2 ∪ behind).image (o.1, ·)

/-- The names in the productions, in their order. -/
def followRules (g : Grammar) (first : Finset (String × String)) :
    List (Finset (String × String) → Finset (String × String)) :=
  g.productions.flatMap fun p => (occurrences p.rhs).map (followRule g first p)

lemma mem_followRules {rule : Finset (String × String) → Finset (String × String)} :
    rule ∈ followRules g first ↔ ∃ p ∈ g.productions, ∃ before b after,
      p.rhs = before ++ .nonterminal b :: after ∧ followRule g first p (b, after) = rule := by
  rw [followRules, List.mem_flatMap]
  refine exists_congr fun p => and_congr_right fun _ => ?_
  rw [List.mem_map]
  constructor
  · rintro ⟨⟨b, after⟩, ho, rfl⟩
    obtain ⟨before, hrhs⟩ := mem_occurrences.1 ho
    exact ⟨before, b, after, hrhs, rfl⟩
  · rintro ⟨before, b, after, hrhs, rfl⟩
    exact ⟨(b, after), mem_occurrences.2 ⟨before, hrhs⟩, rfl⟩

lemma mem_followRule {o : String × List Symbol} :
    (b, a) ∈ followRule g first p o follow ↔
      b = o.1 ∧ (a ∈ firstAmong g first o.2 ∨ g.Derives o.2 [] ∧ (p.lhs, a) ∈ follow) := by
  have hbehind : a ∈ (if allNullable g.nullables o.2 then
        (follow.filter (·.1 = p.lhs)).image Prod.snd else ∅) ↔
      g.Derives o.2 [] ∧ (p.lhs, a) ∈ follow := by
    rw [← allNullable_iff]
    split
    · rename_i hnull
      rw [and_iff_right hnull]
      simp
    · rename_i hnot
      exact iff_of_false (Finset.notMem_empty a) fun h => hnot h.1
  rw [← hbehind, ← Finset.mem_union]
  exact mem_image_mk

/-- When sweeps over the names in productions have settled, and the terminals are known with which
names begin, the known terminals are those that follow names. -/
lemma mem_iff_of_isSettled_followRules
    (hfirst : ∀ b a, (b, a) ∈ first ↔ ∃ rest, g.Derives [.nonterminal b] (.terminal a :: rest))
    (h : IsSettled (followRules g first) {(g.start, endMark)} follow) :
    (b, a) ∈ follow ↔ a ∈ followOf g b := by
  constructor
  · refine h.induction (fun e => e.2 ∈ followOf g e.1) ?_ ?_ (b, a)
    · intro e he
      obtain rfl := Finset.mem_singleton.1 he
      exact endMark_mem_followOf
    · rintro rule hrule facts hfacts ⟨c, d⟩ he
      obtain ⟨p, hp, before, b, after, hrhs, rfl⟩ := mem_followRules.1 hrule
      obtain ⟨rfl, hd⟩ := mem_followRule.1 he
      have hoccurs : Occurs g p.lhs c after := ⟨p, hp, rfl, before, hrhs⟩
      rcases hd with hd | ⟨hafter, hlhs⟩
      · obtain ⟨rest, hrest⟩ := (mem_firstAmong_iff hfirst).1 hd
        exact mem_followOf_of_behind hoccurs hrest
      · exact mem_followOf_of_ending hoccurs hafter (hfacts _ hlhs)
  · intro ha
    obtain ⟨c, hends, hc⟩ := mem_followOf.1 ha
    -- along the edges of endings, from the last name to the first
    induction hends using ReflTransGen.head_induction_on with
    | refl =>
        rcases hc with ⟨rfl, rfl⟩ | hnear
        · exact h.start_subset (Finset.mem_singleton_self _)
        · obtain ⟨d, after, rest, ⟨p, hp, -, before, hrhs⟩, hrest⟩ := exists_neighbours_iff.1 hnear
          refine h.closed _ (mem_followRules.2 ⟨p, hp, before, c, after, hrhs, rfl⟩) ?_
          exact mem_followRule.2 ⟨rfl, Or.inl ((mem_firstAmong_iff hfirst).2 ⟨rest, hrest⟩)⟩
    | @head d e hedge hends ih =>
        have he := ih (mem_followOf.2 ⟨c, hends, hc⟩)
        obtain ⟨after, ⟨p, hp, rfl, before, hrhs⟩, hafter⟩ := mem_endingEdges_iff.1 hedge
        refine h.closed _ (mem_followRules.2 ⟨p, hp, before, d, after, hrhs, rfl⟩) ?_
        exact mem_followRule.2 ⟨rfl, Or.inr ⟨hafter, he⟩⟩

/-! ### Sweeps end -/

/-- The end mark and all names of a grammar. -/
def allNames (g : Grammar) : Finset String :=
  (endMark :: g.start :: g.productions.flatMap fun p => p.lhs :: p.rhs.map Symbol.name).toFinset

lemma start_mem_allNames : (g.start, endMark) ∈ allNames g ×ˢ allNames g := by
  simp [allNames]

lemma lhs_mem_allNames (hp : p ∈ g.productions) : p.lhs ∈ allNames g := by
  refine List.mem_toFinset.2 (List.mem_cons_of_mem _ (List.mem_cons_of_mem _ ?_))
  exact List.mem_flatMap.2 ⟨p, hp, List.mem_cons_self⟩

lemma name_mem_allNames (hp : p ∈ g.productions) (hx : x ∈ p.rhs) : x.name ∈ allNames g := by
  refine List.mem_toFinset.2 (List.mem_cons_of_mem _ (List.mem_cons_of_mem _ ?_))
  exact List.mem_flatMap.2 ⟨p, hp, List.mem_cons_of_mem _ (List.mem_map_of_mem hx)⟩

/-- A part of a right-hand side begins with terminals of the grammar. -/
lemma mem_allNames_of_mem_firstAmong (hfirst : first ⊆ allNames g ×ˢ allNames g)
    (hp : p ∈ g.productions) (hsymbols : ∀ x ∈ symbols, x ∈ p.rhs)
    (ha : a ∈ firstAmong g first symbols) : a ∈ allNames g := by
  rcases mem_firstAmong.1 ha with hexposes | ⟨b, -, hb⟩
  · exact name_mem_allNames hp (hsymbols _ hexposes.mem)
  · exact (Finset.mem_product.1 (hfirst hb)).2

lemma firstRule_subset {rule : Finset (String × String) → Finset (String × String)}
    (hrule : rule ∈ g.productions.map (firstRule g)) (hfirst : first ⊆ allNames g ×ˢ allNames g) :
    rule first ⊆ allNames g ×ˢ allNames g := by
  obtain ⟨p, hp, rfl⟩ := List.mem_map.1 hrule
  rintro ⟨b, a⟩ he
  obtain ⟨rfl, ha⟩ := mem_firstRule.1 he
  have hname := mem_allNames_of_mem_firstAmong hfirst hp (fun x hx => hx) ha
  exact Finset.mem_product.2 ⟨lhs_mem_allNames hp, hname⟩

lemma followRule_subset {rule : Finset (String × String) → Finset (String × String)}
    (hfirst : first ⊆ allNames g ×ˢ allNames g) (hrule : rule ∈ followRules g first)
    (hfollow : follow ⊆ allNames g ×ˢ allNames g) : rule follow ⊆ allNames g ×ˢ allNames g := by
  obtain ⟨p, hp, before, b, after, hrhs, rfl⟩ := mem_followRules.1 hrule
  have hb : Symbol.nonterminal b ∈ p.rhs := hrhs ▸ List.mem_append_right _ List.mem_cons_self
  have hafter : ∀ x ∈ after, x ∈ p.rhs := fun x hx =>
    hrhs ▸ List.mem_append_right _ (List.mem_cons_of_mem _ hx)
  rintro ⟨c, a⟩ he
  obtain ⟨rfl, ha⟩ := mem_followRule.1 he
  refine Finset.mem_product.2 ⟨name_mem_allNames hp hb, ?_⟩
  rcases ha with ha | ⟨-, ha⟩
  · exact mem_allNames_of_mem_firstAmong hfirst hp hafter ha
  · exact (Finset.mem_product.1 (hfollow ha)).2

/-- For all grammars: the terminals with which a name begins are those that begin forms derived from
it; the followers of a name are the terminals that stand right behind it in derived forms, and the
end mark if the start symbol derives a form that ends in it. Sweeps over the productions, and with
what they find sweeps over the names in them, go on until nothing is new; they end and find the same
terminals. -/
theorem firstOf_and_followOf_exact (g : Grammar) :
    (∀ a b, a ∈ firstOf g b ↔ ∃ rest, g.Derives [.nonterminal b] (.terminal a :: rest)) ∧
      (∀ a b, a ∈ followOf g b ↔
        (∃ c before after,
          g.Derives [.nonterminal c] (before ++ .nonterminal b :: .terminal a :: after)) ∨
        a = endMark ∧ ∃ before, g.Derives [.nonterminal g.start] (before ++ [.nonterminal b])) ∧
      ∃ fuel first, sweeps (g.productions.map (firstRule g)) fuel ∅ = some first ∧
        (∀ a b, (b, a) ∈ first ↔ a ∈ firstOf g b) ∧
        ∃ fuel' follow,
          sweeps (followRules g first) fuel' {(g.start, endMark)} = some follow ∧
          ∀ a b, (b, a) ∈ follow ↔ a ∈ followOf g b := by
  obtain ⟨fuel, first, hsweeps⟩ := exists_sweeps (Finset.empty_subset (allNames g ×ˢ allNames g))
    fun rule hrule facts hfacts => firstRule_subset hrule hfacts
  have hsettled := isSettled_of_sweeps hsweeps
  have hfirst : ∀ b a, (b, a) ∈ first ↔
      ∃ rest, g.Derives [.nonterminal b] (.terminal a :: rest) :=
    fun b a => mem_iff_of_isSettled_firstRule hsettled
  have hwithin : first ⊆ allNames g ×ˢ allNames g := hsettled.subset (Finset.empty_subset _)
    fun rule hrule facts hfacts => firstRule_subset hrule hfacts
  obtain ⟨fuel', follow, hsweeps'⟩ :=
    exists_sweeps (Finset.singleton_subset_iff.2 (start_mem_allNames (g := g)))
      fun rule hrule facts hfacts => followRule_subset hwithin hrule hfacts
  refine ⟨fun a b => mem_firstOf_iff, fun a b => mem_followOf_iff, fuel, first, hsweeps,
    fun a b => (hfirst b a).trans mem_firstOf_iff.symm, fuel', follow, hsweeps', fun a b => ?_⟩
  exact mem_iff_of_isSettled_followRules hfirst (isSettled_of_sweeps hsweeps')

end DeductiveParsing.Lr
