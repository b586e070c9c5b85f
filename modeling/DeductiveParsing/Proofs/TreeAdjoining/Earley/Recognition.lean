/-
What parsing with trees from the left finds.

* `TreeEarley.isClosed_reached`: no rule concludes anything but what is true;
* `TreeEarley.Walkable`: from the left side of a node the walk comes to the right side, as soon as
  the foot below the node has taken up what the tree is adjoined to;
* `TreeEarley.walkable_of_derives`: this holds of every derived tree that reads a part of the input
  and whose inner nodes have nonterminals;
* `TreeEarley.isDerivable_iff_declared`: when a run has ended, something is derivable exactly if the
  grammar of the elementary trees with nonterminals at all inner nodes generates the input;
* `TreeEarley.treeEarley_isDerivable_exact`: so if all elementary trees have, exactly if the grammar
  generates the input.
-/
import DeductiveParsing.Proofs.Deduction.Closure
import DeductiveParsing.Proofs.TreeAdjoining.Earley.Termination

namespace DeductiveParsing

open TreeAdjoining

variable {W : Type} {g : Grammar} {tokens : List String} {schema : Schema W}

/-- If two neighbours have a gap that joins with one before them, the first of them has. -/
lemma Gap.exists_join?_assoc {f g h r s : Gap} (hjoin : g.join? h = some r)
    (houter : f.join? r = some s) :
    ∃ q, f.join? g = some q ∧ q.join? h = some s := by
  rcases Gap.join?_eq_some.1 hjoin with ⟨rfl, rfl⟩ | ⟨rfl, rfl⟩
  · exact ⟨f, Gap.join?_absent_right f, houter⟩
  · exact ⟨s, houter, Gap.join?_absent_right s⟩

namespace TreeEarley

open TreeEarleyRule

/-! ### Nothing else is concluded -/

/-- The forms of true items are closed under the rules. -/
lemma isClosed_reached [Weight W] (hg : g.IsWellFormed) (hfeet : g.HasLeafFeet)
    (hepsilon : epsilon ∉ g.terminals) (hschema : Schema.treeEarley g tokens = .ok schema) :
    schema.IsClosed {form | ∃ v, form = NodeVisit.form v ∧ Reached g tokens v} := by
  refine ⟨fun a ha x hx => ?_, fun rule hrule xs f hxs _ hf y hy => ?_⟩
  · obtain ⟨name, alpha, hmem, -, rfl⟩ := (mem_axioms hschema).1 ⟨a, ha, hx⟩
    exact ⟨_, rfl, .begin_root hg hfeet hepsilon (hg.tree?_of_initial hmem).2 (Nat.zero_le _)⟩
  · obtain ⟨ps, q, hstep, ⟨hform, -⟩, hps⟩ := exists_step_of_fire hg hschema hrule
      (fun x hx => (hxs x hx).imp fun v hv => hv.1) hf hy
    refine ⟨q.1, hform, .step hg hfeet hepsilon hstep fun p hp => ?_⟩
    obtain ⟨x, hx, hshown, -⟩ := hps p hp
    obtain ⟨v, hv, hreached⟩ := hxs x hx
    exact NodeVisit.form_injective (hshown.symm.trans hv) ▸ hreached

/-! ### Everything else is concluded -/

/-- Whether all inner nodes and all feet have nonterminals. -/
def HasNonterminals (g : Grammar) : Prop :=
  ∀ named ∈ g.trees, ∀ node ∈ named.2.nodes,
    node.2.isLeaf = false ∨ node.2.foot = true → node.2.label ∈ g.nonterminals

instance (g : Grammar) : Decidable (HasNonterminals g) :=
  inferInstanceAs (Decidable (∀ named ∈ g.trees, ∀ node ∈ named.2.nodes, _ → _))

lemma HasNonterminals.everywhere (h : HasNonterminals g) :
    ∀ named ∈ g.trees, named.2.Everywhere g.IsDeclared := by
  intro named hnamed u hu hinner
  obtain ⟨node, hnode, rfl⟩ := List.mem_map.1 hu
  refine h named hnamed node hnode (Or.inl ?_)
  rw [Bool.eq_false_iff]
  exact fun hleaf => hinner (Tree.isLeaf_iff.1 hleaf)

/-- Whether all feet in a tree have nonterminals. -/
def HasNonterminalFeet (g : Grammar) (t : Tree) : Prop :=
  t.Everywhere fun u => u.foot = true → u.label ∈ g.nonterminals

lemma hasNonterminalFeet_initial (hg : g.IsWellFormed) {name : String} {alpha : Tree}
    (hmem : (name, alpha) ∈ g.initial) : HasNonterminalFeet g alpha := fun u hu hfoot =>
  absurd hfoot (List.filter_eq_nil_iff.1 (hg.feet_initial _ hmem) u hu)

/-- The foot of an auxiliary tree has the label of the root. -/
lemma hasNonterminalFeet_auxiliary (hg : g.IsWellFormed) {name : String} {beta : Tree}
    (hmem : (name, beta) ∈ g.auxiliary) (hlabel : beta.label ∈ g.nonterminals) :
    HasNonterminalFeet g beta := by
  obtain ⟨foot, hfoot, hsame⟩ := hg.feet_auxiliary _ hmem
  intro u hu hufoot
  have hmem' : u ∈ GrammarFile.feet beta := List.mem_filter.2 ⟨hu, hufoot⟩
  rw [hfoot, List.mem_singleton] at hmem'
  rwa [hmem', hsame]

section Closed

variable [Weight W] {F : Set Form} {name aux : String} {a p : Address} {i j k l m n : ℕ}
  {gap gap' joined : Gap} {t u alpha beta : Tree}

/-- The form of an item at a station where nothing has been adjoined. -/
def formAt (name : String) (a : Address) (c : Corner) (i : ℕ) (gap : Gap) (j : ℕ) : Form :=
  (visitAt name a c i gap j).form

variable (hg : g.IsWellFormed) (hschema : Schema.treeEarley g tokens = .ok schema)
  (hF : schema.IsClosed F)
include hg hschema hF

/-- A closed set contains what a step leads to. -/
lemma mem_of_step (vs : List NodeVisit) {q : Visited}
    (hstep : Step g tokens (vs.map fun v => (v, [])) q) (hvs : ∀ v ∈ vs, v.form ∈ F) :
    q.1.form ∈ F := by
  have hxs : List.Forall₂ Says ((vs.map NodeVisit.form).map Item.ofForm : List (Item W))
      (vs.map fun v => (v, [])) := by
    rw [List.map_map, List.forall₂_map_left_iff, List.forall₂_map_right_iff, List.forall₂_same]
    exact fun v _ => ⟨rfl, rfl⟩
  obtain ⟨r, hr, harity, hfire⟩ := isTaken_of_step hg hstep hxs
  obtain ⟨f, hf, z, hz, hform, -⟩ := hfire _ (List.Perm.refl _)
  refine hF.mem_of_fire ((mem_rules hschema).2 ⟨r, hr, rfl⟩) (vs.map NodeVisit.form) ?_ ?_
    (Rule.fire?_eq_some.2 ⟨harity.symm, hf⟩) (hform ▸ List.mem_map_of_mem hz)
  · simpa using hvs
  · simpa [Function.comp_def] using hstep.nodup

lemma mem_of_step_one {v w : NodeVisit} {ts : List Tree} (h : v.form ∈ F)
    (hstep : Step g tokens [(v, [])] (w, ts)) : w.form ∈ F :=
  mem_of_step hg hschema hF [v] hstep (by simpa using h)

lemma mem_of_step_two {v v' w : NodeVisit} {ts : List Tree} (h : v.form ∈ F) (h' : v'.form ∈ F)
    (hstep : Step g tokens [(v, []), (v', [])] (w, ts)) : w.form ∈ F :=
  mem_of_step hg hschema hF [v, v'] hstep (by simp [h, h'])

end Closed

/-! ### Walks around derived trees -/

/-- If there is a gap, the walk comes to the left side of the foot at its beginning. -/
def FootOpens (g : Grammar) (F : Set Form) (name : String) (gap : Gap) : Prop :=
  ∀ k l, gap = ⟨some k, some l⟩ →
    ∃ foot, g.foot? name = some foot ∧ formAt name foot .leftBelow k .absent k ∈ F

/-- If there is a gap, the walk goes on from the right side of the foot at its end. -/
def FootCloses (g : Grammar) (F : Set Form) (name : String) (gap : Gap) : Prop :=
  ∀ k l foot, gap = ⟨some k, some l⟩ → g.foot? name = some foot →
    formAt name foot .rightBelow k gap l ∈ F

/-- The walk that has come from `c` at one node to `c'` at another, over what reads the tokens
between `j` and `k`. It passes the foot in two parts: first the foot opens, and once it closes the
walk comes to its end. -/
structure Walk (g : Grammar) (F : Set Form) (name : String) (gap : Gap) (last : Gap → Form)
    (before : Gap) : Prop where
  opens : FootOpens g F name gap
  ends : FootCloses g F name gap → ∀ joined, before.join? gap = some joined → last joined ∈ F

lemma footOpens_absent (name : String) (F : Set Form) : FootOpens g F name .absent := by
  rintro k l ⟨⟩

lemma footCloses_absent (name : String) (F : Set Form) : FootCloses g F name .absent := by
  rintro k l foot ⟨⟩

/-- Wherever the walk reaches the left side of a node with the elementary tree `t`, it comes around
the tree `u` to the right side, over all tokens that `u` reads. -/
def Walkable (g : Grammar) (tokens : List String) (F : Set Form) (t u : Tree) : Prop :=
  ∀ name a i before j gap k, g.node? name a = some t →
    formAt name a .leftAbove i before j ∈ F → Reads tokens u.frontier j gap k →
      Walk g F name gap (fun joined => formAt name a .rightAbove i joined k) before

section Walks

variable [Weight W] {F : Set Form} {name : String} {a : Address} {i j k n : ℕ}
  {before gap : Gap} {t : Tree}

variable (hg : g.IsWellFormed) (hschema : Schema.treeEarley g tokens = .ok schema)
  (hF : schema.IsClosed F)
include hg hschema hF

/-- The walk over the children of a node from one of them on. -/
lemma walk_children {cs us : List Tree} (hus : List.Forall₂ (Walkable g tokens F) cs us)
    (ht : g.node? name a = some t) (hcs : t.children.drop n = cs) (hne : cs ≠ [])
    (h : formAt name (a.child (n + 1)) .leftAbove i before j ∈ F)
    (hreads : Reads tokens (us.flatMap Tree.frontier) j gap k) :
    Walk g F name gap (fun joined => formAt name a .rightBelow i joined k) before := by
  induction hus generalizing n before j gap with
  | nil => exact absurd rfl hne
  | @cons c u cs us hu hus ih =>
      have hchild : ∀ m, g.node? name (a.child (n + m + 1)) = (c :: cs)[m]? := fun m => by
        rw [Grammar.node?_child, ht, ← hcs, List.getElem?_drop]
        rfl
      have hfirst : g.node? name (a.child (n + 1)) = some c := hchild 0
      rw [List.flatMap_cons] at hreads
      obtain ⟨m, gap₁, gap₂, hleft, hright, hjoin⟩ := hreads.exists_of_append
      have hwalk := hu name _ i before j gap₁ m hfirst h hleft
      cases cs with
      | nil =>
          -- behind the last child the walk goes up
          cases hus
          cases hright
          rw [Gap.join?_absent_right, Option.some.injEq] at hjoin
          subst hjoin
          refine ⟨hwalk.opens, fun hcloses joined hjoined => ?_⟩
          exact mem_of_step_one hg hschema hF (hwalk.ends hcloses joined hjoined)
            (.goUp (hchild 1))
      | cons d cs =>
          have hdrop : t.children.drop (n + 1) = d :: cs := by
            rw [← List.drop_drop, hcs]
            rfl
          have hnext : ∀ joined, formAt name (a.child (n + 1)) .rightAbove i joined m ∈ F →
              Walk g F name gap₂ (fun joined => formAt name a .rightBelow i joined k) joined :=
            fun joined hjoined => ih hdrop (List.cons_ne_nil _ _)
              (mem_of_step_one hg hschema hF hjoined (.goRight (by rw [hchild 1]; rfl))) hright
          have hcloses₁ : FootCloses g F name gap → FootCloses g F name gap₁ := by
            intro hcloses
            rcases Gap.join?_eq_some.1 hjoin with ⟨rfl, rfl⟩ | ⟨rfl, rfl⟩
            · exact footCloses_absent name F
            · exact hcloses
          have hcloses₂ : FootCloses g F name gap → FootCloses g F name gap₂ := by
            intro hcloses
            rcases Gap.join?_eq_some.1 hjoin with ⟨rfl, rfl⟩ | ⟨rfl, rfl⟩
            · exact hcloses
            · exact footCloses_absent name F
          refine ⟨?_, fun hcloses joined hjoined => ?_⟩
          · rcases Gap.join?_eq_some.1 hjoin with ⟨rfl, rfl⟩ | ⟨rfl, rfl⟩
            · have hpassed := hwalk.ends (footCloses_absent name F) before
                (Gap.join?_absent_right before)
              exact (hnext before hpassed).opens
            · exact hwalk.opens
          · obtain ⟨between, hbetween, hrest⟩ := Gap.exists_join?_assoc hjoin hjoined
            have hpassed := hwalk.ends (hcloses₁ hcloses) between hbetween
            exact (hnext between hpassed).ends (hcloses₂ hcloses) joined hrest

/-- The walk from the left side below an inner node to its right side. -/
lemma walk_below {us : List Tree} (hus : List.Forall₂ (Walkable g tokens F) t.children us)
    (ht : g.node? name a = some t) (hinner : t.children ≠ [])
    (h : formAt name a .leftBelow j .absent j ∈ F)
    (hreads : Reads tokens (us.flatMap Tree.frontier) j gap k) :
    Walk g F name gap (fun joined => formAt name a .rightBelow j joined k) .absent := by
  obtain ⟨c, cs, hchildren⟩ := List.exists_cons_of_ne_nil hinner
  have hfirst : g.node? name (a.child 1) = some c := by
    rw [show (1 : ℕ) = 0 + 1 from rfl, Grammar.node?_child, ht, Option.bind_some, hchildren]
    rfl
  exact walk_children hg hschema hF hus ht (List.drop_zero) hinner
    (mem_of_step_one hg hschema hF h (.goDown (by rw [hfirst]; rfl))) hreads

/-- A walk to the right side below a node goes on to the right side above it. -/
lemma Walk.above (adjoined : Bool) (hlabel : t.label ∈ g.nonterminals)
    (ht : g.node? name a = some t) (h : formAt name a .leftAbove i before j ∈ F)
    (hwalk : Walk g F name gap (fun joined =>
      NodeVisit.form ⟨name, a, Corner.rightBelow.text, j, joined, k, adjoined⟩) .absent) :
    Walk g F name gap (fun joined => formAt name a .rightAbove i joined k) before where
  opens := hwalk.opens
  ends hcloses _ hjoined := mem_of_step_two hg hschema hF h
    (hwalk.ends hcloses gap (Gap.join?_absent_left gap)) (.closeNode ht hlabel hjoined)

/-- The walk passes a leaf that stays, if it is no foot without a nonterminal. -/
lemma walkable_of_stay (hleaf : t.children = []) (hstay : g.MayStay t)
    (hnonterminal : t.foot = true → t.label ∈ g.nonterminals) : Walkable g tokens F t t := by
  intro name a i before j gap k ht h hreads
  cases hfoot : t.foot with
  | true =>
      rw [Tree.frontier_of_foot hleaf hfoot] at hreads
      cases hreads with
      | hole hle rest =>
          cases rest
          have hfound : g.foot? name = some a := hg.foot?_eq_some_iff.2 ⟨t, ht, hfoot⟩
          have hlabel := hnonterminal hfoot
          have hsite : ¬g.IsSite t := fun hsite => by simp [hsite.2.1] at hfoot
          refine Walk.above hg hschema hF false hlabel ht h ⟨?_, ?_⟩
          · rintro _ _ ⟨⟩
            exact ⟨a, hfound, mem_of_step_one hg hschema hF h (.goBelow ht hlabel hsite)⟩
          · intro hcloses joined hjoined
            rw [Gap.join?_absent_left, Option.some.injEq] at hjoined
            subst hjoined
            exact hcloses j k a rfl hfound
  | false =>
      cases hepsilon : t.isEpsilon with
      | true =>
          rw [Tree.frontier_of_isEpsilon hepsilon hfoot] at hreads
          cases hreads
          refine ⟨footOpens_absent name F, fun _ joined hjoined => ?_⟩
          rw [Gap.join?_absent_right, Option.some.injEq] at hjoined
          exact hjoined ▸ mem_of_step_one hg hschema hF h (.scanEmpty ht hepsilon)
      | false =>
          have hterminal : t.label ∈ g.terminals := by
            simpa [Grammar.MayStay, hfoot, hepsilon] using hstay
          rw [Tree.frontier_of_label hleaf hfoot hepsilon] at hreads
          cases hreads with
          | token htoken rest =>
              cases rest
              refine ⟨footOpens_absent name F, fun _ joined hjoined => ?_⟩
              rw [Gap.join?_absent_right, Option.some.injEq] at hjoined
              exact hjoined ▸ mem_of_step_one hg hschema hF h
                (.scanToken ht hleaf hterminal htoken)

/-- Around every derived tree whose inner nodes have nonterminals the walk comes to the end of what
the tree reads. The feet that stay have nonterminals as well, since an auxiliary tree adjoins at an
inner node with the label of its foot. -/
theorem walkable_of_derives (hfeet : g.HasLeafFeet) {u : Tree} (hderives : g.Derives g.MayStay t u)
    (hu : u.Everywhere g.IsDeclared) (ht : HasNonterminalFeet g t) : Walkable g tokens F t u := by
  have hchildren : ∀ {t : Tree} {us : List Tree}, t.children ≠ [] →
      List.Forall₂ (fun t u => u.Everywhere g.IsDeclared → HasNonterminalFeet g t →
        Walkable g tokens F t u) t.children us →
      ({ t with children := us } : Tree).Everywhere g.IsDeclared → HasNonterminalFeet g t →
        t.label ∈ g.nonterminals ∧ List.Forall₂ (Walkable g tokens F) t.children us := by
    intro t us hinner hus hu ht
    obtain ⟨hlabel, hwalks⟩ := Grammar.forall₂_of_everywhere hinner hus hu
    have hboth := (List.forall₂_and_left _ _).2 ⟨(Tree.everywhere_iff.1 ht).2, hwalks⟩
    exact ⟨hlabel, hboth.imp fun _ _ hu => hu.2 hu.1⟩
  revert hu ht
  refine Grammar.Derives.ind ?stay ?substitute ?inner ?adjoin hderives
  case stay =>
    exact fun t hleaf hstay _ ht =>
      walkable_of_stay hg hschema hF hleaf hstay (Tree.everywhere_iff.1 ht).1
  case substitute =>
    intro t u alpha source hsite hmem hlabel hderives ih hu _ name a i before j gap k ht h hreads
    have halpha := hasNonterminalFeet_initial hg hmem
    have hroot : g.node? source .root = some alpha := by
      rw [Grammar.node?_root, (hg.tree?_of_initial hmem).2]
    -- what is derived from an initial tree has no hole
    have hhole : none ∉ u.frontier := by
      rw [← List.count_eq_zero, hg.count_none_derives hfeet hderives, hg.count_none_initial hmem]
    obtain rfl := hreads.gap_eq_absent hhole
    have hbegin := mem_of_step_one hg hschema hF h (.beginInitial ht hsite hmem hlabel)
    have hend := (ih hu halpha source .root j .absent j .absent k hroot hbegin hreads).ends
      (footCloses_absent source F) .absent (Gap.join?_absent_left _)
    refine Walk.above hg hschema hF false hsite.2.2 ht h
      ⟨footOpens_absent name F, fun _ joined hjoined => ?_⟩
    rw [Gap.join?_absent_left, Option.some.injEq] at hjoined
    obtain ⟨target, htarget, hnode⟩ := Grammar.node?_eq_some_iff.1 ht
    exact hjoined ▸ mem_of_step_one hg hschema hF hend (.fillNode htarget hnode hsite hmem hlabel)
  case inner =>
    intro t us hinner hus ih hu hfeet' name a i before j gap k ht h hreads
    obtain ⟨hlabel, hwalks⟩ := hchildren hinner ih hu hfeet'
    rw [g.frontier_with_children hinner hus] at hreads
    have hbelow := mem_of_step_one hg hschema hF h
      (.goBelow ht hlabel fun hsite => hinner hsite.1)
    exact Walk.above hg hschema hF false hlabel ht h
      (walk_below hg hschema hF hwalks ht hinner hbelow hreads)
  case adjoin =>
    intro t us beta b source hinner hus ihus hmem hlabel' hb ihb hu hfeet' name a i before j gap k
      ht h hreads
    obtain ⟨hlookup, htree⟩ := hg.tree?_of_auxiliary hmem
    have hroot : g.node? source .root = some beta := by rw [Grammar.node?_root, htree]
    have hadjoin : g.isAdjoinable source name a = true :=
      Grammar.isAdjoinable_iff.2 ⟨beta, t, hlookup, ht, hinner, hlabel'.symm⟩
    have hone : b.frontier.count none = 1 := by
      rw [hg.count_none_derives hfeet hb, hg.count_none_auxiliary hfeet hmem]
    have hhole : none ∈ b.frontier := List.count_pos_iff.1 (hone ▸ Nat.one_pos)
    obtain ⟨hlabel, hwalks⟩ := hchildren hinner ihus
      (Tree.everywhere_of_atFoot_of_hole hhole hu) hfeet'
    have hbeta := hasNonterminalFeet_auxiliary hg hmem (hlabel' ▸ hlabel)
    rw [Tree.frontier_atFoot, g.frontier_with_children hinner hus] at hreads
    obtain ⟨l, m, hreads, hinside⟩ := Reads.exists_of_fill hone hreads
    -- the walk around the auxiliary tree comes to its foot, and from there below the node
    have hbegin := mem_of_step_one hg hschema hF h (.beginAuxiliary hmem hadjoin)
    have hwalk := ihb (Tree.everywhere_of_atFoot (Grammar.isInherited_isDeclared g)
      (fun _ => Grammar.isDeclared_of_leaf) hu) hbeta source .root j .absent j _ k hroot hbegin
      hreads
    obtain ⟨foot, hfoot, hopen⟩ := hwalk.opens l m rfl
    obtain ⟨target, htarget, -⟩ := Grammar.node?_eq_some_iff.1 ht
    have hbelow := walk_below hg hschema hF hwalks ht hinner
      (mem_of_step_one hg hschema hF hopen (.beginSite hfoot hadjoin htarget)) hinside
    refine Walk.above hg hschema hF true hlabel ht h
      ⟨hbelow.opens, fun hcloses joined hjoined => ?_⟩
    -- what is found below the node closes the foot, and the walk around the auxiliary tree ends
    have hunder := hbelow.ends hcloses joined hjoined
    have hcloses' : FootCloses g F source ⟨some l, some m⟩ := by
      rintro _ _ foot' ⟨⟩ hfoot'
      obtain rfl := Option.some.inj (hfoot.symm.trans hfoot')
      exact mem_of_step_two hg hschema hF hunder hopen (.fillFoot hfoot hadjoin)
    have hend := hwalk.ends hcloses' _ (Gap.join?_absent_left _)
    exact mem_of_step_two hg hschema hF hend hunder (.wrap hadjoin)

end Walks

/-! ### Runs -/

section Runs

variable [Weight W]

omit [Weight W] in
/-- The goals are the forms at which the walk has come around an initial tree with the start
symbol. -/
lemma exists_goal_iff (hschema : Schema.treeEarley g tokens = .ok schema) {form : Form} :
    (∃ x ∈ schema.goals, x.form = form) ↔
      ∃ name alpha, (name, alpha) ∈ g.initial ∧ alpha.label = g.start ∧
        form = (visitAt name .root .rightAbove 0 .absent tokens.length).form := by
  rw [schema_eq hschema]
  refine (Schema.exists_goal_make (F := {form})).trans ?_
  simp only [Grammar.startTrees, List.mem_map, List.mem_filter, beq_iff_eq, Prod.exists,
    Set.mem_singleton_iff]
  constructor
  · rintro ⟨_, ⟨name, alpha, ⟨hmem, hstart⟩, rfl⟩, hform⟩
    exact ⟨name, alpha, hmem, hstart, hform.symm⟩
  · rintro ⟨name, alpha, hmem, hstart, hform⟩
    exact ⟨_, ⟨name, alpha, ⟨hmem, hstart⟩, rfl⟩, hform.symm⟩

/-- When a run has ended, something is derivable exactly if the grammar without the elementary trees
that have an inner node without a nonterminal generates the input. -/
theorem isDerivable_iff_declared (hg : g.IsWellFormed) (hfeet : g.HasLeafFeet)
    (hepsilon : epsilon ∉ g.terminals) (hschema : Schema.treeEarley g tokens = .ok schema)
    {settings : Settings} {fuel : ℕ} {o : Outcome W}
    (h : Deduction.run settings schema fuel = .ok o) :
    o.isDerivable = true ↔ g.declared.Generates g.MayStay tokens := by
  obtain ⟨hleast, hderivable⟩ := Deduction.isLeast_and_isDerivable_iff_of_run
    (isUnweighted_and_isUnambiguous hschema) h
  have hgoals : (∃ x ∈ schema.goals, x.form ∈ o.chart.forms) ↔
      ∃ name alpha, (name, alpha) ∈ g.initial ∧ alpha.label = g.start ∧
        formAt name .root .rightAbove 0 .absent tokens.length ∈ o.chart.forms := by
    constructor
    · rintro ⟨x, hx, hmem⟩
      obtain ⟨name, alpha, halpha, hstart, hform⟩ := (exists_goal_iff hschema).1 ⟨x, hx, rfl⟩
      exact ⟨name, alpha, halpha, hstart, show NodeVisit.form _ ∈ _ from hform ▸ hmem⟩
    · rintro ⟨name, alpha, halpha, hstart, hmem⟩
      obtain ⟨x, hx, hform⟩ := (exists_goal_iff hschema).2 ⟨name, alpha, halpha, hstart, rfl⟩
      exact ⟨x, hx, hform.symm ▸ hmem⟩
  rw [hderivable, hgoals, hg.generates_declared_iff hfeet]
  constructor
  · rintro ⟨name, alpha, hmem, hstart, hform⟩
    obtain ⟨v, hv, hreached⟩ := hleast.2 (isClosed_reached hg hfeet hepsilon hschema) hform
    obtain rfl := NodeVisit.form_injective hv
    obtain ⟨us, hderived, hdeclared, hread⟩ := hreached
    obtain ⟨u, rfl⟩ := hderived.exists_of_rightRoot rfl rfl
    have hu := hderived.derives_root (hg.tree?_of_initial hmem).2
    rw [List.flatMap_singleton] at hread
    -- what is derived from an initial tree has no hole
    cases hread with
    | misread hole =>
        have hnone := hg.count_none_derives hfeet hu
        rw [hg.count_none_initial hmem] at hnone
        exact absurd hole (List.count_eq_zero.1 hnone)
    | found reads =>
        have hall := hdeclared.everywhere (c := .rightAbove) rfl (by decide) u
          (List.mem_singleton_self u)
        exact ⟨name, alpha, u, hmem, hstart, hu, hall, reads_iff_map_some.1 reads⟩
  · rintro ⟨name, alpha, u, hmem, hstart, hderives, hall, hfrontier⟩
    refine ⟨name, alpha, hmem, hstart, ?_⟩
    have hroot : g.node? name .root = some alpha := by
      rw [Grammar.node?_root, (hg.tree?_of_initial hmem).2]
    obtain ⟨b, hb, hx⟩ := (mem_axioms hschema).2 ⟨name, alpha, hmem, hstart, rfl⟩
    have hbegin : formAt name .root .leftAbove 0 .absent 0 ∈ o.chart.forms :=
      hleast.1.axioms_mem b hb _ hx
    have hwalkable := walkable_of_derives hg hschema hleast.1 hfeet hderives hall
      (hasNonterminalFeet_initial hg hmem)
    exact (hwalkable name .root 0 .absent 0 .absent tokens.length hroot hbegin
      (reads_iff_map_some.2 hfrontier)).ends (footCloses_absent name _) .absent
      (Gap.join?_absent_left _)

/-- When a run has ended, something is derivable exactly if the grammar generates the input. -/
lemma isDerivable_iff_of_run (hg : g.IsWellFormed) (hfeet : g.HasLeafFeet)
    (hlabels : HasNonterminals g) (hepsilon : epsilon ∉ g.terminals)
    (hschema : Schema.treeEarley g tokens = .ok schema) {settings : Settings} {fuel : ℕ}
    {o : Outcome W} (h : Deduction.run settings schema fuel = .ok o) :
    o.isDerivable = true ↔ g.Generates g.MayStay tokens := by
  rw [isDerivable_iff_declared hg hfeet hepsilon hschema h,
    Grammar.declared_eq_self hlabels.everywhere]

/-- For every grammar that is read from a file, whose feet are leaves, whose inner nodes and feet
have nonterminals and which does not declare the letter for the empty string as a terminal, and for
every input: whenever a run of parsing with trees from the left has ended, something is derivable
exactly if the input is spelled by a tree derived from an initial tree with the start symbol. There
a leaf with a terminal may stay even if its label is declared as a nonterminal too. -/
theorem treeEarley_isDerivable_exact {file : String}
    (hread : GrammarFile.readTreeAdjoining file = .ok g) (hfeet : g.HasLeafFeet)
    (hlabels : HasNonterminals g) (hepsilon : epsilon ∉ g.terminals) (tokens : List String) :
    ∃ schema : Schema W, Schema.treeEarley g tokens = .ok schema ∧
      ∀ settings fuel o, Deduction.run settings schema fuel = .ok o →
        (o.isDerivable = true ↔ g.Generates g.MayStay tokens) := by
  obtain ⟨schema, hschema⟩ : ∃ schema : Schema W, Schema.treeEarley g tokens = .ok schema :=
    ⟨_, rfl⟩
  refine ⟨schema, hschema, fun settings fuel o h => ?_⟩
  exact isDerivable_iff_of_run (GrammarFile.isWellFormed_of_read hread) hfeet hlabels hepsilon
    hschema h

end Runs

/-- A run in which a tree fills a leaf and another one adjoins twice ends with a parse. -/
theorem exists_treeEarley_isDerivable_exact_repeat :
    ∃ (schema : Schema Float) (fuel : ℕ) (o : Outcome Float),
      GrammarFile.readTreeAdjoining repeatFile = .ok repeatGrammar ∧ repeatGrammar.HasLeafFeet ∧
      HasNonterminals repeatGrammar ∧ epsilon ∉ repeatGrammar.terminals ∧
      Schema.treeEarley repeatGrammar ["a", "a"] = .ok schema ∧
      Deduction.run ⟨.accumulate, none⟩ schema fuel = .ok o ∧ o.isDerivable = true := by
  have hg := GrammarFile.isWellFormed_of_read read_repeatFile
  have hfeet : repeatGrammar.HasLeafFeet := by decide
  have hlabels : HasNonterminals repeatGrammar := by decide
  have hepsilon : epsilon ∉ repeatGrammar.terminals := by decide
  obtain ⟨schema, hschema, hexact⟩ :=
    treeEarley_isDerivable_exact (W := Float) read_repeatFile hfeet hlabels hepsilon ["a", "a"]
  obtain ⟨fuel, o, h⟩ := exists_run_of_acyclic hg hfeet acyclic_repeatGrammar hschema
  exact ⟨schema, fuel, o, read_repeatFile, hfeet, hlabels, hepsilon, hschema, h,
    (hexact _ _ _ h).2 generates_repeat⟩

/-- A leaf with a nonterminal need not be filled: if its label is a terminal too, the run finds a
parse where all such leaves would have to be filled to generate the input. -/
theorem exists_treeEarley_isDerivable_overlap :
    ∃ (schema : Schema Float) (fuel : ℕ) (o : Outcome Float),
      GrammarFile.readTreeAdjoining overlapFile = .ok overlapGrammar ∧
      overlapGrammar.HasLeafFeet ∧ HasNonterminals overlapGrammar ∧
      epsilon ∉ overlapGrammar.nonterminals ∧ epsilon ∉ overlapGrammar.terminals ∧
      Schema.treeEarley overlapGrammar ["a"] = .ok schema ∧
      Deduction.run ⟨.accumulate, none⟩ schema fuel = .ok o ∧ o.isDerivable = true ∧
      ¬overlapGrammar.Generates overlapGrammar.MustStay ["a"] := by
  have hfeet : overlapGrammar.HasLeafFeet := by decide
  have hlabels : HasNonterminals overlapGrammar := by decide
  have hepsilon : epsilon ∉ overlapGrammar.terminals := by decide
  have hg := GrammarFile.isWellFormed_of_read read_overlapFile
  obtain ⟨schema, hschema⟩ : ∃ schema : Schema Float,
      Schema.treeEarley overlapGrammar ["a"] = .ok schema := ⟨_, rfl⟩
  obtain ⟨fuel, o, h⟩ : ∃ fuel o, Deduction.run ⟨.accumulate, none⟩ schema fuel = .ok o :=
    exists_run_of_acyclic hg hfeet
      (Grammar.not_transGen_leadsTo_of_rank (fun _ => 0) (by decide)) hschema
  exact ⟨schema, fuel, o, read_overlapFile, hfeet, hlabels, by decide, hepsilon, hschema, h,
    (isDerivable_iff_of_run hg hfeet hlabels hepsilon hschema h).2 generates_overlap,
    not_generates_overlap⟩

end TreeEarley

end DeductiveParsing
