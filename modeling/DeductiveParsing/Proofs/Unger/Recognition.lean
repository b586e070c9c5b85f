/-
What parsing by splits finds.

* `Unger.IsSound`: questions are about names without the mark, and answers are about names that
  derive the tokens in between and were asked for;
* `Unger.derives_of_chained`: answers in a row derive the tokens from the first to the last place;
* `Unger.IsAnswered`, `Unger.isAnswered_of_production`: a name is answered where it derives tokens;
* `Unger.mem_forms_iff`, `Unger.isDerivable_iff_mem`: the answers in the chart at the end;
* `Unger.unger_answers`: the same for grammars that are read from files;
* `Unger.exists_isDerivable_emptyStart`: if the start symbol is the empty string, the first question
  is its own answer.
-/
import DeductiveParsing.Algorithm
import DeductiveParsing.Proofs.ContextFree.Names
import DeductiveParsing.Proofs.Deduction.Closure
import DeductiveParsing.Proofs.GrammarFile.ContextFree
import DeductiveParsing.Proofs.Unger.Termination

namespace DeductiveParsing.Unger

open ContextFree Grammar Rewriting
open UngerRule (asked answered item HasPlainNames)

variable {W : Type} {g : Grammar} {tokens names u w : List String} {p : Production} {x : String}
  {i j : ℕ} {F : Set Form}

/-! ### Answers are right -/

/-- What is known of the items in a chart: a question is about a name without the mark, which is
empty only if the start symbol is, and an answer is about a name that was asked for and derives the
tokens in between. -/
inductive IsSound (g : Grammar) (tokens : List String) (F : Set Form) : Form → Prop
  | question {x : String} {i j : ℕ} (hij : i ≤ j) (hj : j ≤ tokens.length) (hx : '•' ∉ x.toList)
      (hempty : x = "" → g.start = "") : IsSound g tokens F (form (asked x) i j)
  | answer {x : String} {i j : ℕ} (hij : i ≤ j) (hj : j ≤ tokens.length)
      (hasked : form (asked x) i j ∈ F) (hderives : g.DerivesNames [x] (span tokens i j)) :
      IsSound g tokens F (form (answered x) i j)

lemma IsSound.exists_form {f : Form} (h : IsSound g tokens F f) :
    ∃ name i j, f = form name i j ∧ i ≤ j ∧ j ≤ tokens.length := by
  cases h with
  | question hij hj => exact ⟨_, _, _, rfl, hij, hj⟩
  | answer hij hj => exact ⟨_, _, _, rfl, hij, hj⟩

/-- The fields of a sound item make up its form. -/
lemma IsSound.form_eq {y : Item W} (h : IsSound g tokens F y.form) {name : String}
    (hname : y.symbol? 0 = some name) (hi : y.index? 1 = some i) (hj : y.index? 2 = some j) :
    y.form = form name i j ∧ i ≤ j ∧ j ≤ tokens.length := by
  obtain ⟨name', i', j', hform, hle⟩ := h.exists_form
  obtain ⟨hname', hi', hj'⟩ := fields_of_form hform
  obtain rfl := Option.some.inj (hname.symm.trans hname')
  obtain rfl := Option.some.inj (hi.symm.trans hi')
  obtain rfl := Option.some.inj (hj.symm.trans hj')
  exact ⟨hform, hle⟩

/-- An answer is about a name that was asked for and derives the tokens in between, unless the name
and the start symbol are empty. -/
lemma IsSound.of_answered {f : Form} (h : IsSound g tokens F f) (hf : f = form (answered x) i j) :
    (x = "" ∧ g.start = "") ∨
      form (asked x) i j ∈ F ∧ g.DerivesNames [x] (span tokens i j) := by
  cases h with
  | question _ _ hy hempty =>
      obtain ⟨heq, -, -⟩ := form_injective hf
      obtain ⟨hyempty, hx⟩ := eq_empty_of_asked_eq_answered hy heq
      exact Or.inl ⟨hx, hempty hyempty⟩
  | answer _ _ hasked hderives =>
      obtain ⟨heq, rfl, rfl⟩ := form_injective hf
      obtain rfl := answered_injective heq
      exact Or.inr ⟨hasked, hderives⟩

/-- The names of answers in a row derive the tokens from the first place to the last. -/
lemma derives_of_chained {answers : List (Item W)}
    (hnames : ∀ b ∈ names, b ≠ "") (hlength : answers.length = names.length)
    (hsound : ∀ y ∈ answers, IsSound g tokens F y.form)
    (h : UngerRule.chained i j answers (names.map answered) = true) :
    i ≤ j ∧ g.DerivesNames names (span tokens i j) := by
  induction answers generalizing names i with
  | nil =>
      obtain rfl := List.length_eq_zero_iff.1 hlength.symm
      obtain rfl : i = j := by simpa [UngerRule.chained] using h
      exact ⟨le_rfl, by rw [span_self]; exact .refl []⟩
  | cons y answers ih =>
      cases names with
      | nil => simp at hlength
      | cons b names =>
          rw [List.forall_mem_cons] at hnames hsound
          rw [List.map_cons, UngerRule.chained] at h
          split at h
          · rename_i hy
            cases hnext : y.index? 2 with
            | none => simp [hnext] at h
            | some k =>
                rw [hnext] at h
                obtain ⟨hkj, hrest⟩ := ih hnames.2 (by simpa using hlength) hsound.2 h
                obtain ⟨hform, hik, -⟩ := hsound.1.form_eq hy.1 hy.2 hnext
                obtain ⟨-, hderives⟩ :=
                  (hsound.1.of_answered hform).resolve_left fun hempty => hnames.1 hempty.1
                refine ⟨hik.trans hkj, ?_⟩
                rw [← span_append hik hkj]
                exact hderives.append hrest
          · simp at h

/-- Scanning answers a question about a token. -/
lemma isSound_scan {y : Item W} {f : Firing W} (hy : IsSound g tokens F y.form)
    (hmem : y.form ∈ F) (hf : UngerRule.fire (.scan tokens) [y] = some f) :
    ∀ z ∈ f.items, IsSound g tokens F z.form := by
  obtain ⟨name, i, j, hform, hij, hj⟩ := hy.exists_form
  obtain ⟨a, rfl, rfl, ha, hitems⟩ := scan_eq_some hform hf
  intro z hz
  rw [hitems, List.mem_singleton] at hz
  subst hz
  exact .answer hij hj (hform ▸ hmem) (by rw [span_succ ha]; exact .refl [a])

/-- A prediction asks for the names of a right-hand side. -/
lemma isSound_predict (hplain : HasPlainNames p) {y : Item W} {f : Firing W}
    (hy : IsSound g tokens F y.form) (hf : UngerRule.fire (.predict p) [y] = some f) :
    ∀ z ∈ f.items, IsSound g tokens F z.form := by
  obtain ⟨name, i, j, hform, -, hj⟩ := hy.exists_form
  intro z hz
  obtain ⟨b, hb, k, l, rfl, -, hkl, hl⟩ := predict_eq_some hform hf z hz
  obtain ⟨hne, hmark⟩ := hplain b (List.mem_cons_of_mem _ hb)
  exact .question hkl (hl.trans hj) hmark fun hempty => absurd hempty hne

/-- A completion answers a question with answers for a right-hand side. -/
lemma isSound_complete (hp : p ∈ g.productions) (hplain : HasPlainNames p) {xs : List (Item W)}
    {f : Firing W} (hlength : xs.length = p.rhs.length + 1)
    (hsound : ∀ y ∈ xs, IsSound g tokens F y.form) (hmem : ∀ y ∈ xs, y.form ∈ F)
    (hf : UngerRule.fire (.complete p) xs = some f) :
    ∀ z ∈ f.items, IsSound g tokens F z.form := by
  obtain ⟨question, answers, i, j, hperm, hi, hj, hasked, hchained, hitems⟩ := complete_eq_some hf
  have hquestion : question ∈ xs := hperm.subset List.mem_cons_self
  obtain ⟨hform, hij, hle⟩ := (hsound question hquestion).form_eq hasked hi hj
  have hcount : answers.length = p.rhsNames.length := by
    have hsum := hperm.length_eq
    rw [List.length_cons] at hsum
    rw [Production.rhsNames, List.length_map]
    omega
  obtain ⟨-, hderives⟩ := derives_of_chained
    (fun b hb => (hplain b (List.mem_cons_of_mem _ hb)).1) hcount
    (fun y hy => hsound y (hperm.subset (List.mem_cons_of_mem _ hy))) hchained
  intro z hz
  rw [hitems, List.mem_singleton] at hz
  subst hz
  exact .answer hij hle (hform ▸ hmem question hquestion) (derivesNames_of_production hp hderives)

/-! ### Names are answered -/

/-- Whether a name is answered about some tokens wherever it is asked for about them. There is at
least one of them, and just one if no production has the name on its left-hand side. -/
structure IsAnswered (g : Grammar) (tokens : List String) (F : Set Form) (x : String)
    (u : List String) : Prop where
  ne_nil : u ≠ []
  length_eq_one : (∀ p ∈ g.productions, p.lhs ≠ x) → u.length = 1
  answers : ∀ before behind, tokens = before ++ u ++ behind →
    form (asked x) before.length (before.length + u.length) ∈ F →
      form (answered x) before.length (before.length + u.length) ∈ F

/-- The symbols of a right-hand side may stand for the parts about which they are answered. -/
lemma fits_of_isAnswered (hg : g.IsWellFormed)
    (hlhs : ∀ p ∈ g.productions, p.lhs ∈ g.nonterminals) (hp : p ∈ g.productions)
    {us : List (List String)} (h : List.Forall₂ (IsAnswered g tokens F) p.rhsNames us) :
    Fits p.rhs (us.map List.length) := by
  have hsymbols := (List.forall₂_and_left (p := (· ∈ p.rhs)) _ _).2
    ⟨fun s hs => hs, List.forall₂_map_left_iff.1 h⟩
  refine List.forall₂_map_right_iff.2 (hsymbols.imp fun s u hsu => ?_)
  obtain ⟨hs, hu⟩ := hsu
  refine ⟨List.length_pos_iff.2 hu.ne_nil, fun hterminal => hu.length_eq_one fun q hq hname => ?_⟩
  cases s with
  | terminal a =>
      obtain rfl : q.lhs = a := hname
      exact hg.not_mem_nonterminals hp hs (hlhs q hq)
  | nonterminal a => cases hterminal

/-- If names are asked for about parts of the tokens in a row, all of them are answered. -/
lemma answerForms_subset {us : List (List String)}
    (h : List.Forall₂ (IsAnswered g tokens F) names us) (before behind : List String)
    (htokens : tokens = before ++ us.flatten ++ behind)
    (hasked : ∀ q ∈ names.zip (spansFrom before.length (us.map List.length)),
      form (asked q.1) q.2.1 q.2.2 ∈ F) :
    ∀ f ∈ answerForms names (spansFrom before.length (us.map List.length)), f ∈ F := by
  induction h generalizing before with
  | nil => simp [answerForms]
  | @cons x u names us hx _ ih =>
      rw [List.map_cons, spansFrom, List.zip_cons_cons, List.forall_mem_cons] at hasked
      rw [List.map_cons, answerForms_cons, List.forall_mem_cons]
      have hfirst := hx.answers before (us.flatten ++ behind) (by simp [htokens]) hasked.1
      have hrest := ih (before ++ u) (by simp [htokens])
        (by rw [List.length_append]; exact hasked.2)
      rw [List.length_append] at hrest
      exact ⟨hfirst, hrest⟩

section Schema

variable [Weight W] {schema : Schema W} (hschema : Schema.unger g tokens = .ok schema)
include hschema

/-- In a closed set, what rules conclude from sound items is sound. -/
lemma isClosed_isSound (hplain : ∀ p ∈ g.productions, HasPlainNames p)
    (hstart : '•' ∉ g.start.toList) (hF : schema.IsClosed F) :
    schema.IsClosed {f | f ∈ F ∧ IsSound g tokens F f} where
  axioms_mem a ha x hx := by
    refine ⟨hF.axioms_mem a ha x hx, ?_⟩
    rw [schema_eq hschema] at ha
    obtain rfl := List.mem_singleton.1 ha
    obtain rfl := List.mem_singleton.1 hx
    exact .question (Nat.zero_le _) le_rfl hstart id
  rules_mem rule hrule xs f hxs hnodup hf y hy := by
    refine ⟨hF.rules_mem rule hrule xs f (fun x hx => (hxs x hx).1) hnodup hf y hy, ?_⟩
    obtain ⟨hlength, hf⟩ := Rule.fire?_eq_some.1 hf
    rcases (mem_rules hschema).1 hrule with rfl | ⟨p, hp, rfl | rfl⟩
    · obtain ⟨x, rfl⟩ := List.length_eq_one_iff.1 hlength
      obtain ⟨hmem, hsound⟩ := hxs x List.mem_cons_self
      exact isSound_scan hsound hmem hf y hy
    · obtain ⟨x, rfl⟩ := List.length_eq_one_iff.1 hlength
      exact isSound_predict (hplain p hp) (hxs x List.mem_cons_self).2 hf y hy
    · exact isSound_complete hp (hplain p hp) hlength (fun x hx => (hxs x hx).2)
        (fun x hx => (hxs x hx).1) hf y hy

/-- In a closed set, a question about a left-hand side raises questions for every split. -/
lemma asked_mem_of_fits (hF : schema.IsClosed F) (hp : p ∈ g.productions) {lengths : List ℕ}
    (hfits : Fits p.rhs lengths) (hasked : form (asked p.lhs) i (i + lengths.sum) ∈ F) :
    ∀ q ∈ p.rhsNames.zip (spansFrom i lengths), form (asked q.1) q.2.1 q.2.2 ∈ F := by
  intro q hq
  have hrhs := rhs_ne_nil (hasEmptyProduction_eq_false hschema) hp
  obtain ⟨f, hf, hresult⟩ := exists_fire_predict (W := W)
    (x := .ofForm (form (asked p.lhs) i (i + lengths.sum))) rfl hrhs
    (spansFrom_mem_partitions hfits) hq
  exact hF.mem_of_fire ((mem_rules hschema).2 (Or.inr ⟨p, hp, Or.inl rfl⟩)) [_]
    (List.forall_mem_singleton.2 hasked) (List.nodup_singleton _)
    (Rule.fire?_eq_some.2 ⟨rfl, hf⟩) hresult

/-- In a closed set, it is answered as soon as all of these are for one split. -/
lemma answered_mem_of_fits (hplain : HasPlainNames p) (hF : schema.IsClosed F)
    (hp : p ∈ g.productions) {lengths : List ℕ} (hfits : Fits p.rhs lengths)
    (hasked : form (asked p.lhs) i (i + lengths.sum) ∈ F)
    (hanswers : ∀ f ∈ answerForms p.rhsNames (spansFrom i lengths), f ∈ F) :
    form (answered p.lhs) i (i + lengths.sum) ∈ F := by
  have hlength := length_answerForms (i := i) hfits
  have hcount : p.rhsNames.length = lengths.length := by
    rw [Production.rhsNames, List.length_map]
    exact hfits.length_eq
  -- the question and the answers are different items
  have hnodup : (form (asked p.lhs) i (i + lengths.sum) ::
      answerForms p.rhsNames (spansFrom i lengths)).Nodup :=
    List.nodup_cons.2 ⟨asked_not_mem_answerForms
      (fun b hb => hplain b (List.mem_cons_of_mem _ hb)) _, nodup_answerForms _ _ hfits.one_le⟩
  have hquestion : (Item.ofForm (W := W) (form (asked p.lhs) i (i + lengths.sum))).form =
      form (asked p.lhs) i (i + lengths.sum) := rfl
  obtain ⟨f, hf, hitems⟩ := exists_fire_complete hplain hquestion
    (by rw [List.length_map, hlength]) (chained_answerForms hcount)
  refine hF.mem_of_fire ((mem_rules hschema).2 (Or.inr ⟨p, hp, Or.inr rfl⟩)) _
    (List.forall_mem_cons.2 ⟨hasked, hanswers⟩) hnodup (Rule.fire?_eq_some.2 ⟨?_, hf⟩) ?_
  · rw [List.length_map, List.length_cons, hlength]
    rfl
  · rw [hitems]
    exact List.mem_singleton_self _

variable (hplain : ∀ p ∈ g.productions, HasPlainNames p) (hg : g.IsWellFormed)
  (hlhs : ∀ p ∈ g.productions, p.lhs ∈ g.nonterminals) (hF : schema.IsClosed F)
include hplain hg hlhs hF

/-- A left-hand side is answered about tokens if the right-hand side is answered about parts of them
in a row. -/
lemma isAnswered_of_production (hp : p ∈ g.productions) {us : List (List String)}
    (h : List.Forall₂ (IsAnswered g tokens F) p.rhsNames us) :
    IsAnswered g tokens F p.lhs us.flatten where
  ne_nil hnil := by
    have hle := (fits_of_isAnswered hg hlhs hp h).length_le_sum
    rw [← List.length_flatten, hnil] at hle
    exact rhs_ne_nil (hasEmptyProduction_eq_false hschema) hp
      (List.length_eq_zero_iff.1 (Nat.le_zero.1 hle))
  length_eq_one hne := absurd rfl (hne p hp)
  answers before behind htokens hasked := by
    rw [List.length_flatten] at hasked ⊢
    have hfits := fits_of_isAnswered hg hlhs hp h
    exact answered_mem_of_fits hschema (hplain p hp) hF hp hfits hasked
      (answerForms_subset h before behind htokens (asked_mem_of_fits hschema hF hp hfits hasked))

/-- What names unfold to falls into parts about which they are answered. -/
lemma exists_isAnswered_of_unfolds (h : Unfolds g.ReplacesName names w) :
    ∃ us, w = us.flatten ∧ List.Forall₂ (IsAnswered g tokens F) names us := by
  induction h with
  | nil => exact ⟨[], rfl, .nil⟩
  | keep x _ ih =>
      obtain ⟨us, rfl, hus⟩ := ih
      refine ⟨[x] :: us, rfl, .cons ⟨List.cons_ne_nil _ _, fun _ => rfl, ?_⟩ hus⟩
      intro before behind htokens hasked
      have hx : tokens[before.length]? = some x := by simp [htokens]
      exact hF.mem_of_fire ((mem_rules hschema).2 (Or.inl rfl)) [_]
        (List.forall_mem_singleton.2 hasked) (List.nodup_singleton _)
        (Rule.fire?_eq_some.2 ⟨rfl, fire_scan rfl hx⟩) (List.mem_singleton_self _)
  | expand hx _ _ ihrhs ihnames =>
      obtain ⟨p, hp, rfl, rfl⟩ := hx
      obtain ⟨us, rfl, hus⟩ := ihrhs
      obtain ⟨vs, rfl, hvs⟩ := ihnames
      exact ⟨us.flatten :: vs, rfl,
        .cons (isAnswered_of_production hschema hplain hg hlhs hF hp hus) hvs⟩

/-- In a closed set, a name is answered about tokens that it derives, if it is asked for. -/
lemma answered_of_derivesNames (hasked : form (asked x) i j ∈ F) (hij : i ≤ j)
    (hj : j ≤ tokens.length) (h : g.DerivesNames [x] (span tokens i j)) :
    form (answered x) i j ∈ F := by
  obtain ⟨us, hspan, hus⟩ := exists_isAnswered_of_unfolds hschema hplain hg hlhs hF
    (unfolds_iff_derives.2 h)
  cases hus with
  | @cons _ u _ us hx hnil =>
      cases hnil
      rw [List.flatten_cons, List.flatten_nil, List.append_nil] at hspan
      have hi : (span tokens 0 i).length = i := by rw [length_span (hij.trans hj), Nat.sub_zero]
      have hlength : i + u.length = j := by
        rw [← hspan, length_span hj]
        omega
      have hanswers := hx.answers (span tokens 0 i) (tokens.drop j)
        (by rw [← hspan]; exact eq_append_span tokens hij)
      rw [hi, hlength] at hanswers
      exact hanswers hasked

omit hF in
/-- When a run has ended, a name has an answer in the chart if it was asked for and derives the
tokens in between by name, or if it is empty like the start symbol. -/
lemma mem_forms_iff (hstart : '•' ∉ g.start.toList) {settings : Settings} {fuel : ℕ}
    {o : Outcome W} (h : Deduction.run settings schema fuel = .ok o) :
    form (answered x) i j ∈ o.chart.forms ↔ form (asked x) i j ∈ o.chart.forms ∧
      ((x = "" ∧ g.start = "") ∨ g.DerivesNames [x] (span tokens i j)) := by
  have hleast := (Deduction.isLeast_and_isDerivable_iff_of_run
    (isUnweighted_and_isUnambiguous hschema hplain) h).1
  have hsound : ∀ f ∈ o.chart.forms, IsSound g tokens o.chart.forms f := fun f hf =>
    (hleast.2 (isClosed_isSound hschema hplain hstart hleast.1) hf).2
  constructor
  · intro hmem
    rcases (hsound _ hmem).of_answered rfl with ⟨rfl, hempty⟩ | ⟨hasked, hderives⟩
    · exact ⟨hmem, Or.inl ⟨rfl, hempty⟩⟩
    · exact ⟨hasked, Or.inr hderives⟩
  · rintro ⟨hasked, ⟨rfl, -⟩ | hderives⟩
    · exact hasked
    · obtain ⟨_, _, _, hform, hij, hj⟩ := (hsound _ hasked).exists_form
      obtain ⟨-, rfl, rfl⟩ := form_injective hform
      exact answered_of_derivesNames hschema hplain hg hlhs hleast.1 hasked hij hj hderives

omit hg hlhs hF in
/-- When a run has ended, the question about the whole input is in the chart, and something is
derivable iff its answer is as well. -/
lemma isDerivable_iff_mem {settings : Settings} {fuel : ℕ} {o : Outcome W}
    (h : Deduction.run settings schema fuel = .ok o) :
    form (asked g.start) 0 tokens.length ∈ o.chart.forms ∧
      (o.isDerivable = true ↔ form (answered g.start) 0 tokens.length ∈ o.chart.forms) := by
  obtain ⟨hleast, hderivable⟩ := Deduction.isLeast_and_isDerivable_iff_of_run
    (isUnweighted_and_isUnambiguous hschema hplain) h
  have hasked := hleast.1.axioms_mem
  rw [schema_eq hschema] at hasked
  refine ⟨hasked _ List.mem_cons_self _ List.mem_cons_self, ?_⟩
  rw [hderivable, schema_eq hschema, Schema.exists_goal_make]
  simp [item, form, Item.ofForm]

end Schema

/-! ### Grammars that are read from files -/

/-- The names in productions that are read are plain if they do not hold the mark. -/
lemma hasPlainNames_of_readContextFree {file : String}
    (hread : GrammarFile.readContextFree file = .ok g)
    (hmark : ∀ p ∈ g.productions, ∀ a ∈ p.lhs :: p.rhsNames, '•' ∉ a.toList) :
    ∀ p ∈ g.productions, HasPlainNames p := by
  intro p hp a ha
  refine ⟨?_, hmark p hp a ha⟩
  rcases List.mem_cons.1 ha with rfl | hrhs
  · exact GrammarFile.lhs_ne_empty_of_readContextFree hread p hp
  · obtain ⟨s, hs, rfl⟩ := List.mem_map.1 hrhs
    exact ((GrammarFile.isWellFormed_of_readContextFree hread).named p hp s hs).2

/-- In a grammar that is read, the empty string derives nothing but itself. -/
lemma eq_of_derivesNames_empty {file : String}
    (hread : GrammarFile.readContextFree file = .ok g) (h : g.DerivesNames [""] w) : w = [""] := by
  refine Unfolds.eq_of_forall_not (fun x hx rhs => ?_) (unfolds_iff_derives.2 h)
  obtain rfl := List.mem_singleton.1 hx
  rintro ⟨p, hp, hname, -⟩
  exact GrammarFile.lhs_ne_empty_of_readContextFree hread p hp hname.symm

variable [Weight W] {schema : Schema W} {settings : Settings} {fuel : ℕ} {o : Outcome W}

/-- For every grammar that is read from a file, in which left-hand sides are declared and no symbol
holds the mark of questions and answers, that parsing by splits accepts, and for every input: when a
run has ended, its chart holds the answer for a name and a part of the input iff it holds the
question and the name derives the part by name. So something is derivable iff the start symbol
derives the input. There is one exception: if the start symbol is the empty string, the question
about it is its own answer, and everything is derivable. -/
theorem unger_answers {file : String} (hread : GrammarFile.readContextFree file = .ok g)
    (hlhs : ∀ p ∈ g.productions, p.lhs ∈ g.nonterminals)
    (hmark : ∀ p ∈ g.productions, ∀ a ∈ p.lhs :: p.rhsNames, '•' ∉ a.toList)
    (hstart : '•' ∉ g.start.toList)
    (hschema : Algorithm.unger.compileTokens (.contextFree g) tokens = .ok schema)
    (h : Deduction.run settings schema fuel = .ok o) :
    (∀ x i j, form (answered x) i j ∈ o.chart.forms ↔ form (asked x) i j ∈ o.chart.forms ∧
      ((x = "" ∧ g.start = "") ∨ g.DerivesNames [x] (span tokens i j))) ∧
      (o.isDerivable = true ↔ g.start = "" ∨ g.DerivesNames [g.start] tokens) := by
  have hplain := hasPlainNames_of_readContextFree hread hmark
  have hg := GrammarFile.isWellFormed_of_readContextFree hread
  have hschema' : Schema.unger g tokens = .ok schema := hschema
  have hanswers : ∀ x i j, form (answered x) i j ∈ o.chart.forms ↔ _ :=
    fun x i j => mem_forms_iff hschema' hplain hg hlhs hstart h
  obtain ⟨hasked, hderivable⟩ := isDerivable_iff_mem hschema' hplain h
  refine ⟨hanswers, ?_⟩
  rw [hderivable, hanswers, and_iff_right hasked, and_self, span_length]

/-- A file with the rows of one letter. -/
def rowsFile : String :=
  "N = \x7b\"S\"\x7d\nT = \x7b\"a\"\x7d\nS = \"S\"\nP = \x7b\"S -> a S\", \"S -> a\"\x7d\n"

/-- The grammar in that file. -/
def rowsGrammar : Grammar :=
  ⟨["S"], ["a"], "S", [⟨"S", [.terminal "a", .nonterminal "S"]⟩, ⟨"S", [.terminal "a"]⟩]⟩

lemma read_rowsFile : GrammarFile.readContextFree rowsFile = .ok rowsGrammar := by
  decide +kernel

lemma derivesNames_rowsGrammar :
    rowsGrammar.DerivesNames ["S"] ["a", "a"] ∧ rowsGrammar.DerivesNames ["S"] ["a", "a", "a"] := by
  have hone : rowsGrammar.DerivesNames ["S"] ["a"] :=
    derivesNames_of_production (p := ⟨"S", [.terminal "a"]⟩) (by simp [rowsGrammar]) (.refl _)
  have hnext (w : List String) (h : rowsGrammar.DerivesNames ["S"] w) :
      rowsGrammar.DerivesNames ["S"] (["a"] ++ w) :=
    derivesNames_of_production (p := ⟨"S", [.terminal "a", .nonterminal "S"]⟩)
      (by simp [rowsGrammar]) ((Derives.refl ["a"]).append h)
  exact ⟨hnext _ hone, hnext _ (hnext _ hone)⟩

/-- A run on three letters ends with a derivation, and with the answer about the last two. -/
theorem exists_unger_answers_rows :
    GrammarFile.readContextFree rowsFile = .ok rowsGrammar ∧
      (∀ p ∈ rowsGrammar.productions, p.lhs ∈ rowsGrammar.nonterminals) ∧
      (∀ p ∈ rowsGrammar.productions, ∀ a ∈ p.lhs :: p.rhsNames, '•' ∉ a.toList) ∧
      '•' ∉ rowsGrammar.start.toList ∧
      ∃ (schema : Schema Float) (fuel : ℕ) (o : Outcome Float),
        Algorithm.unger.compileTokens (.contextFree rowsGrammar) ["a", "a", "a"] = .ok schema ∧
          Deduction.run ⟨.accumulate, none⟩ schema fuel = .ok o ∧
          form (answered "S") 1 3 ∈ o.chart.forms ∧ o.isDerivable = true := by
  have hlhs : ∀ p ∈ rowsGrammar.productions, p.lhs ∈ rowsGrammar.nonterminals := by decide
  have hmark : ∀ p ∈ rowsGrammar.productions, ∀ a ∈ p.lhs :: p.rhsNames, '•' ∉ a.toList := by
    decide
  have hstart : '•' ∉ rowsGrammar.start.toList := by decide
  obtain ⟨hlast, hall⟩ := derivesNames_rowsGrammar
  have hplain := hasPlainNames_of_readContextFree read_rowsFile hmark
  obtain ⟨schema, hschema⟩ : ∃ schema : Schema Float,
      Schema.unger rowsGrammar ["a", "a", "a"] = .ok schema := Deduction.exists_of_isOk (by cbv)
  obtain ⟨fuel, o, h⟩ : ∃ fuel o, Deduction.run ⟨.accumulate, none⟩ schema fuel = .ok o :=
    Deduction.exists_run rfl rfl (bounds hschema)
  obtain ⟨hanswers, hderivable⟩ := unger_answers read_rowsFile hlhs hmark hstart hschema h
  -- the question about all letters raises the one about the last two
  have hclosed := (Deduction.isLeast_and_isDerivable_iff_of_run
    (isUnweighted_and_isUnambiguous hschema hplain) h).1.1
  have hfits : Fits [.terminal "a", .nonterminal "S"] [1, 2] := by simp [Fits, Symbol.isTerminal]
  have hasked : form (asked "S") 1 3 ∈ o.chart.forms :=
    asked_mem_of_fits hschema hclosed (p := ⟨"S", [.terminal "a", .nonterminal "S"]⟩)
      List.mem_cons_self hfits (isDerivable_iff_mem hschema hplain h).1 ("S", 1, 3) (by decide)
  exact ⟨read_rowsFile, hlhs, hmark, hstart, schema, fuel, o, hschema, h,
    (hanswers "S" 1 3).2 ⟨hasked, Or.inr hlast⟩, hderivable.2 (Or.inr hall)⟩

/-- A file in which the start symbol is the empty string. -/
def emptyStartFile : String :=
  "N = \x7b\"S\"\x7d\nT = \x7b\"a\"\x7d\nS = \"\"\nP = \x7b\"S -> a\"\x7d\n"

/-- The grammar in that file. -/
def emptyStartGrammar : Grammar :=
  ⟨["S"], ["a"], "", [⟨"S", [.terminal "a"]⟩]⟩

lemma read_emptyStartFile :
    GrammarFile.readContextFree emptyStartFile = .ok emptyStartGrammar := by
  decide +kernel

/-- If the start symbol is the empty string, the first question stands in the chart as its own
answer, and the input is derivable although the start symbol does not derive it. -/
theorem exists_isDerivable_emptyStart :
    GrammarFile.readContextFree emptyStartFile = .ok emptyStartGrammar ∧
      (∀ p ∈ emptyStartGrammar.productions, p.lhs ∈ emptyStartGrammar.nonterminals) ∧
      (∀ p ∈ emptyStartGrammar.productions, ∀ a ∈ p.lhs :: p.rhsNames, '•' ∉ a.toList) ∧
      '•' ∉ emptyStartGrammar.start.toList ∧
      ∃ (schema : Schema Float) (fuel : ℕ) (o : Outcome Float),
        Algorithm.unger.compileTokens (.contextFree emptyStartGrammar) ["a"] = .ok schema ∧
          Deduction.run ⟨.accumulate, none⟩ schema fuel = .ok o ∧
          form (answered emptyStartGrammar.start) 0 1 ∈ o.chart.forms ∧ o.isDerivable = true ∧
          ¬ emptyStartGrammar.DerivesNames [emptyStartGrammar.start] ["a"] := by
  have hlhs : ∀ p ∈ emptyStartGrammar.productions,
      p.lhs ∈ emptyStartGrammar.nonterminals := by decide
  have hmark : ∀ p ∈ emptyStartGrammar.productions,
      ∀ a ∈ p.lhs :: p.rhsNames, '•' ∉ a.toList := by decide
  have hnone : ¬ emptyStartGrammar.DerivesNames [emptyStartGrammar.start] ["a"] := fun h =>
    absurd (eq_of_derivesNames_empty read_emptyStartFile h) (by decide)
  have hplain := hasPlainNames_of_readContextFree read_emptyStartFile hmark
  obtain ⟨schema, hschema⟩ : ∃ schema : Schema Float,
      Schema.unger emptyStartGrammar ["a"] = .ok schema := Deduction.exists_of_isOk (by cbv)
  obtain ⟨fuel, o, h⟩ : ∃ fuel o, Deduction.run ⟨.accumulate, none⟩ schema fuel = .ok o :=
    Deduction.exists_run rfl rfl (bounds hschema)
  obtain ⟨hasked, hderivable⟩ := isDerivable_iff_mem hschema hplain h
  have hanswer : form (answered emptyStartGrammar.start) 0 1 ∈ o.chart.forms := hasked
  exact ⟨read_emptyStartFile, hlhs, hmark, by decide, schema, fuel, o, hschema, h, hanswer,
    hderivable.2 hanswer, hnone⟩

end DeductiveParsing.Unger
