/-
The rules of parsing with trees from the left.

* `NodeVisit.form`: the form of an item;
* `TreeEarley.readToken_eq_some_iff` up to `TreeEarley.goUp_eq_some_iff`: when each rule fires, and
  what it concludes;
* `TreeEarley.mem_rules`, `TreeEarley.mem_axioms`: the schema.
-/
import DeductiveParsing.Proofs.Inference.Orders
import DeductiveParsing.Proofs.TreeAdjoining.Nodes
import DeductiveParsing.Schema.TreeAdjoining

namespace DeductiveParsing

open TreeAdjoining

variable {W : Type} {g : Grammar} {tokens : List String}

/-! ### Items -/

lemma Firing.one_eq_some_iff {name : String} {x : Item W} {f : Firing W} :
    Firing.one name x = some f ↔ f = ⟨name, [x]⟩ := by
  rw [Firing.one, Option.some.injEq, eq_comm]

/-- A rule with any number of conclusions fires if it has one. -/
lemma Firing.ofItems_eq_some_iff {name : String} {items : List (Item W)} {f : Firing W} :
    Firing.ofItems name items = some f ↔ f.items ≠ [] ∧ f = ⟨name, items⟩ := by
  cases items with
  | nil =>
      simp only [ofItems, List.isEmpty_nil, if_true, reduceCtorEq, false_iff, not_and]
      rintro hne rfl
      exact hne rfl
  | cons x items =>
      simp only [ofItems, List.isEmpty_cons, Bool.false_eq_true, if_false, Option.some.injEq,
        eq_comm (a := f)]
      exact ⟨fun h => ⟨h ▸ List.cons_ne_nil _ _, h⟩, And.right⟩

lemma Corner.text_injective : Function.Injective Corner.text := fun c d h => by
  cases c <;> cases d <;> first | rfl | simp [text] at h

namespace NodeVisit

variable {v w : NodeVisit} {x : Item W} {c : Corner}

/-- The form of the item that says so. -/
def form (v : NodeVisit) : Form :=
  [.symbol v.tree, .address v.node, .symbol v.corner, .index v.start, .ofIndex? v.gap.start,
    .ofIndex? v.gap.stop, .index v.stop, .flag v.adjoined]

@[simp] lemma form_toItem (v : NodeVisit) (trees : List Tree) :
    (v.toItem trees : Item W).form = v.form := rfl

@[simp] lemma trees_toItem (v : NodeVisit) (trees : List Tree) :
    (v.toItem trees : Item W).trees = trees := rfl

/-- What an item says can be read off its form. -/
lemma ofItem?_of_form (h : x.form = v.form) : ofItem? x = some v := by
  obtain ⟨tree, node, corner, start, ⟨gapStart, gapStop⟩, stop, adjoined⟩ := v
  cases gapStart <;> cases gapStop <;>
    simp [ofItem?, Item.symbol?, Item.address?, Item.index?, Item.optionalIndex?, Item.flag?,
      Item.field?, h, form, Field.ofIndex?]

lemma form_injective : Function.Injective form := fun v w h => by
  have hv := ofItem?_of_form (W := Unit) (x := .ofForm v.form) (v := v) rfl
  rw [h, ofItem?_of_form (v := w) rfl, Option.some.injEq] at hv
  exact hv.symm

lemma isAt_iff : v.isAt c = true ↔ v.corner = c.text ∧ v.adjoined = false := by
  simp [isAt]

end NodeVisit

namespace TreeEarley

open TreeEarleyRule

/-! ### When the rules fire -/

section Fire

variable {x y : Item W} {v w : NodeVisit} {f : Firing W}

lemma readToken_eq_some_iff (hx : x.form = v.form) :
    readToken g tokens x = some f ↔ ∃ t, g.node? v.tree v.node = some t ∧
      v.isAt .leftAbove = true ∧ t.children = [] ∧ t.label ∈ g.terminals ∧
      tokens[v.stop]? = some t.label ∧ f = ⟨"scan " ++ t.label,
        [{ v.moveTo v.node .rightAbove with stop := v.stop + 1 }.toItem x.trees]⟩ := by
  simp only [readToken, NodeVisit.ofItem?_of_form hx, Option.bind_eq_bind, Option.bind_some,
    Option.bind_eq_some_iff, Option.ite_none_right_eq_some, Firing.one_eq_some_iff,
    Tree.isLeaf_iff, Grammar.isTerminal, List.contains_iff_mem, and_assoc]

lemma readNothing_eq_some_iff (hx : x.form = v.form) :
    readNothing g x = some f ↔ ∃ t, g.node? v.tree v.node = some t ∧
      v.isAt .leftAbove = true ∧ t.isEpsilon = true ∧
      f = ⟨"scan " ++ t.label, [(v.moveTo v.node .rightAbove).toItem x.trees]⟩ := by
  simp only [readNothing, NodeVisit.ofItem?_of_form hx, Option.bind_eq_bind, Option.bind_some,
    Option.bind_eq_some_iff, Option.ite_none_right_eq_some, Firing.one_eq_some_iff, and_assoc]

/-- The items that a prediction of auxiliary trees concludes. -/
lemma beginAuxiliaries_eq_some_iff (hx : x.form = v.form) :
    beginAuxiliaries g x = some f ↔ v.isAt .leftAbove = true ∧ f.items ≠ [] ∧
      f = ⟨name (predictAdjoinable g), (g.auxiliary.filter fun (beta, _) =>
        g.isAdjoinable beta v.tree v.node).map fun (beta, tree) =>
          (NodeVisit.begin beta .root .leftAbove v.stop).toItem [tree]⟩ := by
  simp only [beginAuxiliaries, NodeVisit.ofItem?_of_form hx, Option.bind_eq_bind,
    Option.bind_some, Option.ite_none_right_eq_some, Firing.ofItems_eq_some_iff]

lemma goBelow_eq_some_iff (hx : x.form = v.form) :
    goBelow g x = some f ↔ ∃ t, g.node? v.tree v.node = some t ∧ v.isAt .leftAbove = true ∧
      t.label ∈ g.nonterminals ∧ ¬g.IsSite t ∧ f = ⟨name (predictNoAdjunction g),
        [(NodeVisit.begin v.tree v.node .leftBelow v.stop).toItem x.trees]⟩ := by
  have hsite : ∀ t, g.node? v.tree v.node = some t →
      (g.isSubstitutionNode v.tree v.node = false ↔ ¬g.IsSite t) := by
    intro t ht
    rw [← Bool.not_eq_true, Grammar.isSubstitutionNode_iff]
    simp [ht]
  simp only [goBelow, NodeVisit.ofItem?_of_form hx, Option.bind_eq_bind, Option.bind_some,
    Option.bind_eq_some_iff, Option.ite_none_right_eq_some, Firing.one_eq_some_iff,
    Grammar.isNonterminal, List.contains_iff_mem, and_assoc]
  refine exists_congr fun t => and_congr_right fun ht => ?_
  rw [hsite t ht]

lemma beginSites_eq_some_iff (hx : x.form = v.form) :
    beginSites g x = some f ↔ v.isAt .leftBelow = true ∧ v.start = v.stop ∧ v.gap = .absent ∧
      g.foot? v.tree = some v.node ∧ f.items ≠ [] ∧
      f = ⟨name (predictAdjoined g), (g.adjunctionSites v.tree).filterMap fun (tree, node) =>
        (g.tree? tree).map fun t =>
          (NodeVisit.begin tree node .leftBelow v.stop).toItem [t]⟩ := by
  simp only [beginSites, NodeVisit.ofItem?_of_form hx, Option.bind_eq_bind,
    Option.bind_some, Option.ite_none_right_eq_some, Firing.ofItems_eq_some_iff, and_assoc]

lemma beginInitials_eq_some_iff (hx : x.form = v.form) :
    beginInitials g x = some f ↔ ∃ t, g.node? v.tree v.node = some t ∧
      v.isAt .leftAbove = true ∧ g.isSubstitutionNode v.tree v.node = true ∧ f.items ≠ [] ∧
      f = ⟨name (predictSubstitution g), (g.initial.filter fun (_, u) =>
        u.label == t.label).map fun (alpha, tree) =>
          (NodeVisit.begin alpha .root .leftAbove v.stop).toItem [tree]⟩ := by
  simp only [beginInitials, NodeVisit.ofItem?_of_form hx, Option.bind_eq_bind, Option.bind_some,
    Option.bind_eq_some_iff, Option.ite_none_right_eq_some, Firing.ofItems_eq_some_iff, and_assoc]

lemma fillFoot_eq_some_iff (hx : x.form = v.form) (hy : y.form = w.form) :
    fillFoot g x y = some f ↔ v.isAt .rightBelow = true ∧ w.isAt .leftBelow = true ∧
      w.start = v.start ∧ w.stop = v.start ∧ w.gap = .absent ∧ g.foot? w.tree = some w.node ∧
      g.isAdjoinable w.tree v.tree v.node = true ∧ f = ⟨name (completeFoot g),
        [{ w.moveTo w.node .rightBelow with
          gap := ⟨some v.start, some v.stop⟩, stop := v.stop }.toItem y.trees]⟩ := by
  simp only [fillFoot, NodeVisit.ofItem?_of_form hx, NodeVisit.ofItem?_of_form hy,
    Option.bind_eq_bind, Option.bind_some, Option.ite_none_right_eq_some, Firing.one_eq_some_iff,
    and_assoc]

lemma closeNode_eq_some_iff (hx : x.form = v.form) (hy : y.form = w.form) :
    closeNode g x y = some f ↔ ∃ t gap, g.node? v.tree v.node = some t ∧
      v.gap.join? w.gap = some gap ∧ v.isAt .leftAbove = true ∧
      w.corner = Corner.rightBelow.text ∧ v.tree = w.tree ∧ v.node = w.node ∧
      v.stop = w.start ∧ t.label ∈ g.nonterminals ∧ f = ⟨name (completeNode g),
        [{ v.moveTo v.node .rightAbove with gap := gap, stop := w.stop }.toItem
          (Forest.pair x.trees y.trees fun t u =>
            (u.subtreeAt? v.node).bind fun n => t.replaceAt? v.node n)]⟩ := by
  simp only [closeNode, NodeVisit.ofItem?_of_form hx, NodeVisit.ofItem?_of_form hy,
    Option.bind_eq_bind, Option.bind_some, Option.bind_eq_some_iff,
    Option.ite_none_right_eq_some, Firing.one_eq_some_iff, Grammar.isNonterminal,
    List.contains_iff_mem, and_assoc, exists_and_left]

lemma wrap_eq_some_iff (hx : x.form = v.form) (hy : y.form = w.form) :
    TreeEarleyRule.wrap g x y = some f ↔ v.gap = ⟨some w.start, some w.stop⟩ ∧
      v.isAt .rightAbove = true ∧ v.node = .root ∧ w.isAt .rightBelow = true ∧
      g.isAdjoinable v.tree w.tree w.node = true ∧
      f = ⟨"adjoin " ++ v.tree ++ " " ++ TreeCykRule.placeText w.tree w.node,
        [{ w with start := v.start, stop := v.stop, adjoined := true }.toItem
          (Forest.pair y.trees x.trees fun u t => u.adjoinAt? w.node t)]⟩ := by
  obtain ⟨name, a, c, i, ⟨k, l⟩, j, adjoined⟩ := v
  simp only [TreeEarleyRule.wrap, NodeVisit.ofItem?_of_form hx, NodeVisit.ofItem?_of_form hy,
    Option.bind_eq_bind, Option.bind_some, Option.bind_eq_some_iff,
    Option.ite_none_right_eq_some, Firing.one_eq_some_iff, Address.isRoot_iff, Gap.mk.injEq]
  constructor
  · rintro ⟨k, rfl, l, rfl, ⟨hat, hroot, hat', rfl, rfl, hadjoin⟩, rfl⟩
    exact ⟨⟨rfl, rfl⟩, hat, hroot, hat', hadjoin, rfl⟩
  · rintro ⟨⟨rfl, rfl⟩, hat, hroot, hat', hadjoin, rfl⟩
    exact ⟨_, rfl, _, rfl, ⟨hat, hroot, hat', rfl, rfl, hadjoin⟩, rfl⟩

lemma fillNode_eq_some_iff {tree : String} {a : Address} (hx : x.form = v.form) :
    TreeEarleyRule.fillNode g tree a x = some f ↔ ∃ target site source,
      g.tree? tree = some target ∧ target.subtreeAt? a = some site ∧
      g.tree? v.tree = some source ∧ v.isAt .rightAbove = true ∧ v.node = .root ∧
      v.gap = .absent ∧ g.isInitial v.tree = true ∧ source.label = site.label ∧
      f = ⟨"substitute " ++ v.tree ++ " " ++ TreeCykRule.placeText tree a,
        [({ v with tree := tree, gap := .absent }.moveTo a .rightBelow).toItem
          (x.trees.filterMap (target.substituteAt? a))]⟩ := by
  simp only [TreeEarleyRule.fillNode, NodeVisit.ofItem?_of_form hx, Option.bind_eq_bind,
    Option.bind_some, Option.bind_eq_some_iff, Option.ite_none_right_eq_some,
    Firing.one_eq_some_iff, Address.isRoot_iff, and_assoc, exists_and_left]

lemma goDown_eq_some_iff (hx : x.form = v.form) :
    goDown g x = some f ↔ v.isAt .leftBelow = true ∧
      (g.node? v.tree (v.node.child 1)).isSome ∧
      f = ⟨name (moveDown g), [(v.moveTo (v.node.child 1) .leftAbove).toItem x.trees]⟩ := by
  simp only [goDown, NodeVisit.ofItem?_of_form hx, Option.bind_eq_bind, Option.bind_some,
    Option.ite_none_right_eq_some, Firing.one_eq_some_iff, and_assoc]

lemma goRight_eq_some_iff (hx : x.form = v.form) :
    goRight g x = some f ↔ ∃ (p : Address) (n : ℕ), v.node = p.child n ∧
      v.isAt .rightAbove = true ∧ (g.node? v.tree (p.child (n + 1))).isSome ∧
      f = ⟨name (moveRight g), [(v.moveTo (p.child (n + 1)) .leftAbove).toItem x.trees]⟩ := by
  simp only [goRight, NodeVisit.ofItem?_of_form hx, Option.bind_eq_bind, Option.bind_some,
    Option.bind_eq_some_iff, Option.ite_none_right_eq_some, Firing.one_eq_some_iff, and_assoc]
  constructor
  · rintro ⟨sibling, hsibling, h⟩
    obtain ⟨p, n, hnode, rfl⟩ := Address.eq_child_of_rightSibling? hsibling
    exact ⟨p, n, hnode, h⟩
  · rintro ⟨p, n, hnode, h⟩
    exact ⟨_, by rw [hnode, Address.rightSibling?_child], h⟩

lemma goUp_eq_some_iff (hx : x.form = v.form) :
    goUp g x = some f ↔ ∃ (p : Address) (n : ℕ), v.node = p.child n ∧
      v.isAt .rightAbove = true ∧ g.node? v.tree (p.child (n + 1)) = none ∧
      f = ⟨name (moveUp g), [(v.moveTo p .rightBelow).toItem x.trees]⟩ := by
  simp only [goUp, NodeVisit.ofItem?_of_form hx, Option.bind_eq_bind, Option.bind_some,
    Option.bind_eq_some_iff, Option.ite_none_right_eq_some, Firing.one_eq_some_iff, and_assoc]
  constructor
  · rintro ⟨sibling, hsibling, parent, hparent, h⟩
    obtain ⟨p, n, hnode, rfl⟩ := Address.eq_child_of_rightSibling? hsibling
    rw [hnode, Address.parent?_child, Option.some.injEq] at hparent
    exact ⟨p, n, hnode, hparent ▸ h⟩
  · rintro ⟨p, n, hnode, h⟩
    exact ⟨_, by rw [hnode, Address.rightSibling?_child], _,
      by rw [hnode, Address.parent?_child], h⟩

end Fire

/-! ### Steps -/

/-- What an item says, and its trees. -/
abbrev Visited := NodeVisit × List Tree

/-- The walk at a station where nothing has been adjoined. -/
abbrev visitAt (name : String) (a : Address) (c : Corner) (i : ℕ) (gap : Gap) (j : ℕ) :
    NodeVisit :=
  ⟨name, a, c.text, i, gap, j, false⟩

/-- A step from the premises of a rule to one of its conclusions. -/
inductive Step (g : Grammar) (tokens : List String) : List Visited → Visited → Prop
  | scanToken {name a i gap j t ts} (ht : g.node? name a = some t) (hleaf : t.children = [])
      (hterminal : t.label ∈ g.terminals) (htoken : tokens[j]? = some t.label) :
      Step g tokens [(visitAt name a .leftAbove i gap j, ts)]
        (visitAt name a .rightAbove i gap (j + 1), ts)
  | scanEmpty {name a i gap j t ts} (ht : g.node? name a = some t)
      (hepsilon : t.isEpsilon = true) :
      Step g tokens [(visitAt name a .leftAbove i gap j, ts)]
        (visitAt name a .rightAbove i gap j, ts)
  | beginAuxiliary {name a i gap j aux beta ts} (hmem : (aux, beta) ∈ g.auxiliary)
      (hadjoin : g.isAdjoinable aux name a = true) :
      Step g tokens [(visitAt name a .leftAbove i gap j, ts)]
        (visitAt aux .root .leftAbove j .absent j, [beta])
  | goBelow {name a i gap j t ts} (ht : g.node? name a = some t)
      (hlabel : t.label ∈ g.nonterminals) (hsite : ¬g.IsSite t) :
      Step g tokens [(visitAt name a .leftAbove i gap j, ts)]
        (visitAt name a .leftBelow j .absent j, ts)
  | beginSite {name a j aux p tree ts} (hfoot : g.foot? aux = some p)
      (hadjoin : g.isAdjoinable aux name a = true) (htree : g.tree? name = some tree) :
      Step g tokens [(visitAt aux p .leftBelow j .absent j, ts)]
        (visitAt name a .leftBelow j .absent j, [tree])
  | beginInitial {name a i gap j t source alpha ts} (ht : g.node? name a = some t)
      (hsite : g.IsSite t) (hmem : (source, alpha) ∈ g.initial) (hlabel : alpha.label = t.label) :
      Step g tokens [(visitAt name a .leftAbove i gap j, ts)]
        (visitAt source .root .leftAbove j .absent j, [alpha])
  | fillFoot {name a i gap j aux p ts us} (hfoot : g.foot? aux = some p)
      (hadjoin : g.isAdjoinable aux name a = true) :
      Step g tokens
        [(visitAt name a .rightBelow i gap j, ts), (visitAt aux p .leftBelow i .absent i, us)]
        (visitAt aux p .rightBelow i ⟨some i, some j⟩ j, us)
  | closeNode {name a i before j gap k adjoined joined t ts us} (ht : g.node? name a = some t)
      (hlabel : t.label ∈ g.nonterminals) (hjoin : before.join? gap = some joined) :
      Step g tokens [(visitAt name a .leftAbove i before j, ts),
          (⟨name, a, Corner.rightBelow.text, j, gap, k, adjoined⟩, us)]
        (visitAt name a .rightAbove i joined k,
          Forest.pair ts us fun t u => (u.subtreeAt? a).bind fun n => t.replaceAt? a n)
  | wrap {aux i k l j name a gap ts us} (hadjoin : g.isAdjoinable aux name a = true) :
      Step g tokens [(visitAt aux .root .rightAbove i ⟨some k, some l⟩ j, us),
          (visitAt name a .rightBelow k gap l, ts)]
        (⟨name, a, Corner.rightBelow.text, i, gap, j, true⟩,
          Forest.pair ts us fun t u => t.adjoinAt? a u)
  | goDown {name a i gap j ts} (hchild : (g.node? name (a.child 1)).isSome) :
      Step g tokens [(visitAt name a .leftBelow i gap j, ts)]
        (visitAt name (a.child 1) .leftAbove i gap j, ts)
  | goRight {name} {p : Address} {n i gap j ts}
      (hsibling : (g.node? name (p.child (n + 1))).isSome) :
      Step g tokens [(visitAt name (p.child n) .rightAbove i gap j, ts)]
        (visitAt name (p.child (n + 1)) .leftAbove i gap j, ts)
  | goUp {name} {p : Address} {n i gap j ts} (hlast : g.node? name (p.child (n + 1)) = none) :
      Step g tokens [(visitAt name (p.child n) .rightAbove i gap j, ts)]
        (visitAt name p .rightBelow i gap j, ts)
  | fillNode {name a target t source alpha i j ts} (htarget : g.tree? name = some target)
      (ht : target.subtreeAt? a = some t) (hsite : g.IsSite t) (hmem : (source, alpha) ∈ g.initial)
      (hlabel : alpha.label = t.label) :
      Step g tokens [(visitAt source .root .rightAbove i .absent j, ts)]
        (visitAt name a .rightBelow i .absent j, ts.filterMap (target.substituteAt? a))

/-- Whether an item says something and has the trees for it. -/
def Says (x : Item W) (p : Visited) : Prop := x.form = p.1.form ∧ x.trees = p.2

/-- The premises of a step are at different stations. -/
lemma Step.nodup {ps : List Visited} {q : Visited} (h : Step g tokens ps q) :
    (ps.map fun p => p.1.form).Nodup := by
  have htwo : ∀ {v w : NodeVisit}, v.corner ≠ w.corner → [v.form, w.form].Nodup := by
    intro v w hne
    simpa using fun heq => hne (congrArg NodeVisit.corner (NodeVisit.form_injective heq))
  cases h with
  | fillFoot | closeNode | wrap => exact htwo (by simp [Corner.text])
  | _ => exact List.nodup_singleton _

/-! ### The schema -/

variable {schema : Schema W}

lemma schema_eq (hschema : Schema.treeEarley g tokens = .ok schema) :
    schema = Schema.make
      (g.startTrees.map fun (name, t) =>
        Schema.fact "initialize" ((NodeVisit.begin name .root .leftAbove 0).toItem [t]))
      ((Schema.walkRules g tokens ++ g.substitutionNodes.map fun (tree, node) =>
        TreeEarleyRule.substitute g tree node).map Rule.treeEarley)
      (g.startTrees.map fun named => { NodeVisit.begin named.1 .root .rightAbove 0 with
        stop := tokens.length }.toItem []) :=
  (Except.ok.inj hschema).symm

/-- The rules for a grammar and an input. -/
def IsRule (g : Grammar) (tokens : List String) (r : TreeEarleyRule) : Prop :=
  r ∈ Schema.walkRules g tokens ∨
    ∃ tree node, g.isSubstitutionNode tree node = true ∧ .substitute g tree node = r

lemma mem_rules (hschema : Schema.treeEarley g tokens = .ok schema) {rule : Rule W} : rule ∈ schema.rules ↔ ∃ r, IsRule g tokens r ∧ .treeEarley r = rule := by
  rw [schema_eq hschema]
  simp only [IsRule, Schema.make, List.mem_map, List.mem_append, Prod.exists,
    Grammar.mem_substitutionNodes]

lemma mem_axioms (hschema : Schema.treeEarley g tokens = .ok schema) {x : Item W} :
    (∃ a ∈ schema.axioms, x ∈ a.items) ↔ ∃ name alpha, (name, alpha) ∈ g.initial ∧
      alpha.label = g.start ∧ x = (NodeVisit.begin name .root .leftAbove 0).toItem [alpha] := by
  rw [schema_eq hschema]
  simp only [Schema.make, Schema.fact, Grammar.startTrees, List.mem_map, List.mem_filter,
    beq_iff_eq, Prod.exists]
  constructor
  · rintro ⟨_, ⟨name, alpha, ⟨hmem, hstart⟩, rfl⟩, hx⟩
    exact ⟨name, alpha, hmem, hstart, List.mem_singleton.1 hx⟩
  · rintro ⟨name, alpha, hmem, hstart, rfl⟩
    exact ⟨_, ⟨name, alpha, ⟨hmem, hstart⟩, rfl⟩, List.mem_singleton_self _⟩

lemma isUnweighted_and_isUnambiguous (hschema : Schema.treeEarley g tokens = .ok schema) :
    ∀ rule ∈ schema.rules, rule.IsUnweighted ∧ rule.IsUnambiguous := by
  intro rule hrule
  obtain ⟨r, -, rfl⟩ := (mem_rules hschema).1 hrule
  exact ⟨trivial, trivial⟩

/-! ### The rules take the steps -/

section Rules

variable {xs ys : List (Item W)} {x y z : Item W} {ps : List Visited} {q : Visited}
  {v w : NodeVisit} {ts us : List Tree} {f : Firing W} {r : TreeEarleyRule}

/-- A station, as a visit is there. -/
lemma exists_of_isAt {c : Corner} (h : v.isAt c = true) :
    ∃ name a i gap j, v = visitAt name a c i gap j := by
  obtain ⟨hcorner, hadjoined⟩ := NodeVisit.isAt_iff.1 h
  obtain ⟨name, a, corner, i, gap, j, adjoined⟩ := v
  exact ⟨name, a, i, gap, j, by rw [visitAt, ← hcorner, ← hadjoined]⟩

lemma isAt_visitAt {name a c d i gap j} : (visitAt name a c i gap j).isAt d = true ↔ c = d := by
  rw [NodeVisit.isAt_iff]
  exact ⟨fun h => Corner.text_injective h.1, fun h => ⟨by rw [h], rfl⟩⟩

/-- Every conclusion of a rule from one premise is a step from that. -/
lemma exists_step_of_one (hg : g.IsWellFormed) (hr : IsRule g tokens r) (hx : x.form = v.form)
    (hf : r.fire [x] = some f) (hz : z ∈ f.items) :
    ∃ q, Step g tokens [(v, x.trees)] q ∧ Says z q := by
  have hsole : ∀ {n w ts}, f = ⟨n, [w.toItem ts]⟩ → Step g tokens [(v, x.trees)] (w, ts) →
      ∃ q, Step g tokens [(v, x.trees)] q ∧ Says z q := by
    rintro n w ts rfl hstep
    obtain rfl := List.mem_singleton.1 hz
    exact ⟨_, hstep, rfl, rfl⟩
  cases r with
  | scanToken g' tokens' =>
      obtain ⟨rfl, rfl⟩ : g' = g ∧ tokens' = tokens := by simpa [IsRule, Schema.walkRules] using hr
      obtain ⟨t, ht, hat, hleaf, hterminal, htoken, hf⟩ := (readToken_eq_some_iff hx).1 hf
      obtain ⟨name, a, i, gap, j, rfl⟩ := exists_of_isAt hat
      exact hsole hf (.scanToken ht hleaf hterminal htoken)
  | scanEmpty g' =>
      obtain rfl : g' = g := by simpa [IsRule, Schema.walkRules] using hr
      obtain ⟨t, ht, hat, hepsilon, hf⟩ := (readNothing_eq_some_iff hx).1 hf
      obtain ⟨name, a, i, gap, j, rfl⟩ := exists_of_isAt hat
      exact hsole hf (.scanEmpty ht hepsilon)
  | predictAdjoinable g' =>
      obtain rfl : g' = g := by simpa [IsRule, Schema.walkRules] using hr
      obtain ⟨hat, -, rfl⟩ := (beginAuxiliaries_eq_some_iff hx).1 hf
      obtain ⟨name, a, i, gap, j, rfl⟩ := exists_of_isAt hat
      obtain ⟨⟨aux, beta⟩, hmem, rfl⟩ := List.mem_map.1 hz
      obtain ⟨hmem, hadjoin⟩ := List.mem_filter.1 hmem
      exact ⟨_, .beginAuxiliary hmem hadjoin, rfl, rfl⟩
  | predictNoAdjunction g' =>
      obtain rfl : g' = g := by simpa [IsRule, Schema.walkRules] using hr
      obtain ⟨t, ht, hat, hlabel, hsite, hf⟩ := (goBelow_eq_some_iff hx).1 hf
      obtain ⟨name, a, i, gap, j, rfl⟩ := exists_of_isAt hat
      exact hsole hf (.goBelow ht hlabel hsite)
  | predictAdjoined g' =>
      obtain rfl : g' = g := by simpa [IsRule, Schema.walkRules] using hr
      obtain ⟨hat, hplace, hgap, hfoot, -, rfl⟩ := (beginSites_eq_some_iff hx).1 hf
      obtain ⟨aux, p, i, gap, j, rfl⟩ := exists_of_isAt hat
      obtain rfl : i = j := hplace
      obtain rfl : gap = .absent := hgap
      obtain ⟨⟨name, a⟩, hmem, hz⟩ := List.mem_filterMap.1 hz
      obtain ⟨tree, htree, rfl⟩ := Option.map_eq_some_iff.1 hz
      exact ⟨_, .beginSite hfoot (Grammar.mem_adjunctionSites.1 hmem) htree, rfl, rfl⟩
  | moveDown g' =>
      obtain rfl : g' = g := by simpa [IsRule, Schema.walkRules] using hr
      obtain ⟨hat, hchild, hf⟩ := (goDown_eq_some_iff hx).1 hf
      obtain ⟨name, a, i, gap, j, rfl⟩ := exists_of_isAt hat
      exact hsole hf (.goDown hchild)
  | moveRight g' =>
      obtain rfl : g' = g := by simpa [IsRule, Schema.walkRules] using hr
      obtain ⟨p, n, hnode, hat, hsibling, hf⟩ := (goRight_eq_some_iff hx).1 hf
      obtain ⟨name, a, i, gap, j, rfl⟩ := exists_of_isAt hat
      obtain rfl : a = p.child n := hnode
      exact hsole hf (.goRight hsibling)
  | moveUp g' =>
      obtain rfl : g' = g := by simpa [IsRule, Schema.walkRules] using hr
      obtain ⟨p, n, hnode, hat, hlast, hf⟩ := (goUp_eq_some_iff hx).1 hf
      obtain ⟨name, a, i, gap, j, rfl⟩ := exists_of_isAt hat
      obtain rfl : a = p.child n := hnode
      exact hsole hf (.goUp hlast)
  | predictSubstitution g' =>
      obtain rfl : g' = g := by simpa [IsRule, Schema.walkRules] using hr
      obtain ⟨t, ht, hat, hsite, -, rfl⟩ := (beginInitials_eq_some_iff hx).1 hf
      obtain ⟨name, a, i, gap, j, rfl⟩ := exists_of_isAt hat
      obtain ⟨t', ht', hsite⟩ := Grammar.isSubstitutionNode_iff.1 hsite
      obtain rfl := Option.some.inj (ht.symm.trans ht')
      obtain ⟨⟨source, alpha⟩, hmem, rfl⟩ := List.mem_map.1 hz
      obtain ⟨hmem, hlabel⟩ := List.mem_filter.1 hmem
      exact ⟨_, .beginInitial ht hsite hmem (by simpa using hlabel), rfl, rfl⟩
  | substitute g' name a =>
      obtain ⟨hsite, rfl⟩ : g.isSubstitutionNode name a = true ∧ g = g' := by
        simpa [IsRule, Schema.walkRules] using hr
      obtain ⟨target, t, alpha, htarget, ht, hsource, hat, hroot, hgap, hinitial, hlabel, hf⟩ :=
        (fillNode_eq_some_iff hx).1 hf
      obtain ⟨source, _, i, gap, j, rfl⟩ := exists_of_isAt hat
      obtain rfl := hroot
      obtain rfl : gap = .absent := hgap
      obtain ⟨t', ht', hsite⟩ := Grammar.isSubstitutionNode_iff.1 hsite
      obtain rfl : t = t' := Option.some.inj <|
        (Grammar.node?_eq_some_iff.2 ⟨target, htarget, ht⟩).symm.trans ht'
      obtain ⟨alpha', halpha⟩ := Option.isSome_iff_exists.1 hinitial
      have hmem := mem_of_lookup_eq_some halpha
      obtain rfl := Option.some.inj (hsource.symm.trans (hg.tree?_of_initial hmem).2)
      exact hsole hf (.fillNode htarget ht hsite hmem hlabel)
  | completeFoot | completeNode | adjoin => cases hf

lemma exists_step_of_fillFoot (hx : x.form = v.form) (hy : y.form = w.form)
    (hf : fillFoot g x y = some f) (hz : z ∈ f.items) :
    ∃ q, Step g tokens [(v, x.trees), (w, y.trees)] q ∧ Says z q := by
  obtain ⟨hat, hat', hstart, hstop, hgap, hfoot, hadjoin, rfl⟩ :=
    (fillFoot_eq_some_iff hx hy).1 hf
  obtain ⟨name, a, i, gap, j, rfl⟩ := exists_of_isAt hat
  obtain ⟨aux, p, i', gap', j', rfl⟩ := exists_of_isAt hat'
  obtain rfl : i' = i := hstart
  obtain rfl : j' = i' := hstop
  obtain rfl : gap' = .absent := hgap
  obtain rfl := List.mem_singleton.1 hz
  exact ⟨_, .fillFoot hfoot hadjoin, rfl, rfl⟩

lemma exists_step_of_closeNode (hx : x.form = v.form) (hy : y.form = w.form)
    (hf : closeNode g x y = some f) (hz : z ∈ f.items) :
    ∃ q, Step g tokens [(v, x.trees), (w, y.trees)] q ∧ Says z q := by
  obtain ⟨t, joined, ht, hjoin, hat, hcorner, htree, hnode, hstop, hlabel, rfl⟩ :=
    (closeNode_eq_some_iff hx hy).1 hf
  obtain ⟨name, a, i, gap, j, rfl⟩ := exists_of_isAt hat
  obtain ⟨name', a', c, j', gap', k, adjoined⟩ := w
  simp only at hcorner htree hnode hstop
  subst hcorner htree hnode hstop
  obtain rfl := List.mem_singleton.1 hz
  exact ⟨_, .closeNode ht hlabel hjoin, rfl, rfl⟩

lemma exists_step_of_wrap (hx : x.form = v.form) (hy : y.form = w.form)
    (hf : TreeEarleyRule.wrap g x y = some f) (hz : z ∈ f.items) :
    ∃ q, Step g tokens [(v, x.trees), (w, y.trees)] q ∧ Says z q := by
  obtain ⟨hgap, hat, hroot, hat', hadjoin, rfl⟩ := (wrap_eq_some_iff hx hy).1 hf
  obtain ⟨aux, p, i, gap, j, rfl⟩ := exists_of_isAt hat
  obtain ⟨name, a, k, gap', l, rfl⟩ := exists_of_isAt hat'
  obtain rfl : p = .root := hroot
  obtain rfl : gap = ⟨some k, some l⟩ := hgap
  obtain rfl := List.mem_singleton.1 hz
  exact ⟨_, .wrap hadjoin, rfl, rfl⟩

/-- Every conclusion of a rule from two premises is a step from them, in one of the orders. -/
lemma exists_step_of_two (hr : IsRule g tokens r) (hx : x.form = v.form) (hy : y.form = w.form)
    (hf : r.fire [x, y] = some f) (hz : z ∈ f.items) :
    ∃ q, (Step g tokens [(v, x.trees), (w, y.trees)] q ∨
      Step g tokens [(w, y.trees), (v, x.trees)] q) ∧ Says z q := by
  obtain ⟨fire, hfire, hsteps⟩ : ∃ fire : Item W → Item W → Option (Firing W),
      Firing.eitherOrder? fire x y = some f ∧ ∀ {x y : Item W} {v w : NodeVisit},
        x.form = v.form → y.form = w.form → fire x y = some f →
          ∃ q, Step g tokens [(v, x.trees), (w, y.trees)] q ∧ Says z q := by
    cases r with
    | completeFoot g' =>
        obtain rfl : g' = g := by simpa [IsRule, Schema.walkRules] using hr
        exact ⟨_, hf, fun hx hy hf => exists_step_of_fillFoot hx hy hf hz⟩
    | completeNode g' =>
        obtain rfl : g' = g := by simpa [IsRule, Schema.walkRules] using hr
        exact ⟨_, hf, fun hx hy hf => exists_step_of_closeNode hx hy hf hz⟩
    | adjoin g' =>
        obtain rfl : g' = g := by simpa [IsRule, Schema.walkRules] using hr
        exact ⟨_, hf, fun hx hy hf => exists_step_of_wrap hx hy hf hz⟩
    | _ => cases hf
  rcases Firing.eq_some_of_eitherOrder? hfire with hf | hf
  · obtain ⟨q, hstep, hsays⟩ := hsteps hx hy hf
    exact ⟨q, Or.inl hstep, hsays⟩
  · obtain ⟨q, hstep, hsays⟩ := hsteps hy hx hf
    exact ⟨q, Or.inr hstep, hsays⟩

/-- Whether a rule of the grammar concludes what is said from items in any order. -/
def IsTaken (g : Grammar) (tokens : List String) (xs : List (Item W)) (q : Visited) : Prop :=
  ∃ r, IsRule g tokens r ∧ r.arity = xs.length ∧ ∀ ys : List (Item W), ys.Perm xs →
    ∃ f, r.fire ys = some f ∧ ∃ z ∈ f.items, Says z q

lemma isTaken_of_one (hr : IsRule g tokens r) (harity : r.arity = 1)
    (hxs : List.Forall₂ Says xs [(v, ts)])
    (hfire : ∀ x : Item W, x.form = v.form → ∃ f, r.fire [x] = some f ∧
      ∃ z ∈ f.items, x.trees = ts → Says z q) :
    IsTaken g tokens xs q := by
  obtain ⟨x, _, ⟨hform, htrees⟩, hnil, rfl⟩ := List.forall₂_cons_right_iff.1 hxs
  obtain rfl := List.forall₂_nil_right_iff.1 hnil
  refine ⟨r, hr, harity, fun ys hperm => ?_⟩
  obtain rfl := List.perm_singleton.1 hperm
  obtain ⟨f, hf, z, hz, hsays⟩ := hfire x hform
  exact ⟨f, hf, z, hz, hsays htrees⟩

/-- With two premises the rule must not fire on them in the other order. -/
lemma isTaken_of_two (fire : Item W → Item W → Option (Firing W)) (hr : IsRule g tokens r)
    (harity : r.arity = 2) (heither : ∀ x y, r.fire [x, y] = Firing.eitherOrder? fire x y)
    (hxs : List.Forall₂ Says xs [(v, ts), (w, us)])
    (hfire : ∀ x y : Item W, x.form = v.form → y.form = w.form → fire y x = none ∧
      ∃ f, fire x y = some f ∧ ∃ z ∈ f.items, x.trees = ts → y.trees = us → Says z q) :
    IsTaken g tokens xs q := by
  obtain ⟨x, _, ⟨hform, htrees⟩, hrest, rfl⟩ := List.forall₂_cons_right_iff.1 hxs
  obtain ⟨y, _, ⟨hform', htrees'⟩, hnil, rfl⟩ := List.forall₂_cons_right_iff.1 hrest
  obtain rfl := List.forall₂_nil_right_iff.1 hnil
  obtain ⟨hnone, f, hf, z, hz, hsays⟩ := hfire x y hform hform'
  refine ⟨r, hr, harity, fun ys hperm => ⟨f, ?_, z, hz, hsays htrees htrees'⟩⟩
  rcases List.perm_pair.1 hperm with rfl | rfl
  · rw [heither, Firing.eitherOrder?, hf]
  · rw [heither, Firing.eitherOrder?, hnone, hf]

/-- Every step is taken by a rule. -/
theorem isTaken_of_step (hg : g.IsWellFormed) (hstep : Step g tokens ps q)
    (hxs : List.Forall₂ Says xs ps) : IsTaken g tokens xs q := by
  have hat : ∀ {name a c i gap j}, (visitAt name a c i gap j).isAt c = true :=
    isAt_visitAt.2 rfl
  cases hstep with
  | scanToken ht hleaf hterminal htoken =>
      refine isTaken_of_one (r := .scanToken g tokens) (Or.inl (by simp [Schema.walkRules])) rfl
        hxs fun x hx => ?_
      exact ⟨_, (readToken_eq_some_iff hx).2 ⟨_, ht, hat, hleaf, hterminal, htoken, rfl⟩, _,
        List.mem_singleton_self _, fun htrees => ⟨rfl, htrees⟩⟩
  | scanEmpty ht hepsilon =>
      refine isTaken_of_one (r := .scanEmpty g) (Or.inl (by simp [Schema.walkRules])) rfl hxs
        fun x hx => ?_
      exact ⟨_, (readNothing_eq_some_iff hx).2 ⟨_, ht, hat, hepsilon, rfl⟩, _,
        List.mem_singleton_self _, fun htrees => ⟨rfl, htrees⟩⟩
  | @beginAuxiliary name a _ _ j aux beta _ hmem hadjoin =>
      refine isTaken_of_one (r := .predictAdjoinable g) (Or.inl (by simp [Schema.walkRules])) rfl
        hxs fun x hx => ?_
      have hlisted : ((visitAt aux .root .leftAbove j .absent j).toItem [beta] : Item W) ∈
          (g.auxiliary.filter fun (beta, _) => g.isAdjoinable beta name a).map fun (beta, tree) =>
            (NodeVisit.begin beta .root .leftAbove j).toItem [tree] :=
        List.mem_map.2 ⟨(aux, beta), List.mem_filter.2 ⟨hmem, hadjoin⟩, rfl⟩
      exact ⟨_, (beginAuxiliaries_eq_some_iff hx).2 ⟨hat, List.ne_nil_of_mem hlisted, rfl⟩, _,
        hlisted, fun _ => ⟨rfl, rfl⟩⟩
  | goBelow ht hlabel hsite =>
      refine isTaken_of_one (r := .predictNoAdjunction g) (Or.inl (by simp [Schema.walkRules]))
        rfl hxs fun x hx => ?_
      exact ⟨_, (goBelow_eq_some_iff hx).2 ⟨_, ht, hat, hlabel, hsite, rfl⟩, _,
        List.mem_singleton_self _, fun htrees => ⟨rfl, htrees⟩⟩
  | @beginSite name a j aux p tree _ hfoot hadjoin htree =>
      refine isTaken_of_one (r := .predictAdjoined g) (Or.inl (by simp [Schema.walkRules])) rfl
        hxs fun x hx => ?_
      have hlisted : ((visitAt name a .leftBelow j .absent j).toItem [tree] : Item W) ∈
          (g.adjunctionSites aux).filterMap fun (tree, node) =>
            (g.tree? tree).map fun t => (NodeVisit.begin tree node .leftBelow j).toItem [t] :=
        List.mem_filterMap.2 ⟨(name, a), Grammar.mem_adjunctionSites.2 hadjoin,
          Option.map_eq_some_iff.2 ⟨tree, htree, rfl⟩⟩
      exact ⟨_, (beginSites_eq_some_iff hx).2
        ⟨hat, rfl, rfl, hfoot, List.ne_nil_of_mem hlisted, rfl⟩, _, hlisted, fun _ => ⟨rfl, rfl⟩⟩
  | @beginInitial _ _ _ _ j t source alpha _ ht hsite hmem hlabel =>
      refine isTaken_of_one (r := .predictSubstitution g) (Or.inl (by simp [Schema.walkRules])) rfl
        hxs fun x hx => ?_
      have hlisted : ((visitAt source .root .leftAbove j .absent j).toItem [alpha] : Item W) ∈
          (g.initial.filter fun (_, u) => u.label == t.label).map fun (alpha, tree) =>
            (NodeVisit.begin alpha .root .leftAbove j).toItem [tree] :=
        List.mem_map.2 ⟨(source, alpha), List.mem_filter.2 ⟨hmem, by simpa using hlabel⟩, rfl⟩
      exact ⟨_, (beginInitials_eq_some_iff hx).2 ⟨t, ht, hat,
        Grammar.isSubstitutionNode_iff.2 ⟨t, ht, hsite⟩, List.ne_nil_of_mem hlisted, rfl⟩, _,
        hlisted, fun _ => ⟨rfl, rfl⟩⟩
  | fillFoot hfoot hadjoin =>
      refine isTaken_of_two (r := .completeFoot g) (fillFoot g)
        (Or.inl (by simp [Schema.walkRules])) rfl (fun _ _ => rfl) hxs fun x y hx hy => ⟨?_, ?_⟩
      · refine Option.eq_none_iff_forall_ne_some.2 fun f hf => ?_
        cases isAt_visitAt.1 ((fillFoot_eq_some_iff hy hx).1 hf).1
      · exact ⟨_, (fillFoot_eq_some_iff hx hy).2 ⟨hat, hat, rfl, rfl, rfl, hfoot, hadjoin, rfl⟩, _,
          List.mem_singleton_self _, fun _ htrees => ⟨rfl, htrees⟩⟩
  | closeNode ht hlabel hjoin =>
      refine isTaken_of_two (r := .completeNode g) (closeNode g)
        (Or.inl (by simp [Schema.walkRules])) rfl (fun _ _ => rfl) hxs fun x y hx hy => ⟨?_, ?_⟩
      · refine Option.eq_none_iff_forall_ne_some.2 fun f hf => ?_
        obtain ⟨_, _, -, -, hright, -⟩ := (closeNode_eq_some_iff hy hx).1 hf
        have hcorner : Corner.rightBelow.text = Corner.leftAbove.text :=
          (NodeVisit.isAt_iff.1 hright).1
        cases Corner.text_injective hcorner
      · exact ⟨_, (closeNode_eq_some_iff hx hy).2
          ⟨_, _, ht, hjoin, hat, rfl, rfl, rfl, rfl, hlabel, rfl⟩, _, List.mem_singleton_self _,
          fun htrees htrees' => ⟨rfl, by rw [← htrees, ← htrees']; rfl⟩⟩
  | wrap hadjoin =>
      refine isTaken_of_two (r := .adjoin g) (TreeEarleyRule.wrap g)
        (Or.inl (by simp [Schema.walkRules])) rfl (fun _ _ => rfl) hxs fun x y hx hy => ⟨?_, ?_⟩
      · refine Option.eq_none_iff_forall_ne_some.2 fun f hf => ?_
        obtain ⟨-, hright, -⟩ := (wrap_eq_some_iff hy hx).1 hf
        cases isAt_visitAt.1 hright
      · exact ⟨_, (wrap_eq_some_iff hx hy).2 ⟨rfl, hat, rfl, hat, hadjoin, rfl⟩, _,
          List.mem_singleton_self _, fun htrees htrees' => ⟨rfl, by rw [← htrees, ← htrees']; rfl⟩⟩
  | goDown hchild =>
      refine isTaken_of_one (r := .moveDown g) (Or.inl (by simp [Schema.walkRules])) rfl hxs
        fun x hx => ?_
      exact ⟨_, (goDown_eq_some_iff hx).2 ⟨hat, hchild, rfl⟩, _, List.mem_singleton_self _,
        fun htrees => ⟨rfl, htrees⟩⟩
  | goRight hsibling =>
      refine isTaken_of_one (r := .moveRight g) (Or.inl (by simp [Schema.walkRules])) rfl hxs
        fun x hx => ?_
      exact ⟨_, (goRight_eq_some_iff hx).2 ⟨_, _, rfl, hat, hsibling, rfl⟩, _,
        List.mem_singleton_self _, fun htrees => ⟨rfl, htrees⟩⟩
  | goUp hlast =>
      refine isTaken_of_one (r := .moveUp g) (Or.inl (by simp [Schema.walkRules])) rfl hxs
        fun x hx => ?_
      exact ⟨_, (goUp_eq_some_iff hx).2 ⟨_, _, rfl, hat, hlast, rfl⟩, _,
        List.mem_singleton_self _, fun htrees => ⟨rfl, htrees⟩⟩
  | @fillNode name a target t source alpha _ _ _ htarget ht hsite hmem hlabel =>
      obtain ⟨hlookup, hsource⟩ := hg.tree?_of_initial hmem
      refine isTaken_of_one (r := .substitute g name a) (Or.inr ⟨name, a,
        Grammar.isSubstitutionNode_iff.2
          ⟨t, Grammar.node?_eq_some_iff.2 ⟨target, htarget, ht⟩, hsite⟩, rfl⟩) rfl hxs
        fun x hx => ?_
      exact ⟨_, (fillNode_eq_some_iff hx).2 ⟨target, t, alpha, htarget, ht, hsource, hat, rfl, rfl,
        by rw [Grammar.isInitial, hlookup]; rfl, hlabel, rfl⟩, _, List.mem_singleton_self _,
        fun htrees => ⟨rfl, by rw [← htrees]; rfl⟩⟩

variable [Weight W] {rule : Rule W} {schema : Schema W}

/-- Every conclusion of a rule is a step from its premises. -/
theorem exists_step_of_fire (hg : g.IsWellFormed)
    (hschema : Schema.treeEarley g tokens = .ok schema) (hrule : rule ∈ schema.rules)
    (hxs : ∀ x ∈ xs, ∃ v, x.form = NodeVisit.form v) (hf : rule.fire? xs = some f)
    (hz : z ∈ f.items) :
    ∃ ps q, Step g tokens ps q ∧ Says z q ∧ ∀ p ∈ ps, ∃ x ∈ xs, Says x p := by
  obtain ⟨r, hr, rfl⟩ := (mem_rules hschema).1 hrule
  obtain ⟨hlen, hf⟩ := Rule.fire?_eq_some.1 hf
  match xs, hlen with
  | [], hlen => cases r <;> cases hlen
  | [x], _ =>
      obtain ⟨v, hx⟩ := hxs x (by simp)
      obtain ⟨q, hstep, hsays⟩ := exists_step_of_one hg hr hx hf hz
      exact ⟨_, q, hstep, hsays, by simp [Says, hx]⟩
  | [x, y], _ =>
      obtain ⟨v, hx⟩ := hxs x (by simp)
      obtain ⟨w, hy⟩ := hxs y (by simp)
      obtain ⟨q, hstep | hstep, hsays⟩ := exists_step_of_two hr hx hy hf hz
      · exact ⟨_, q, hstep, hsays, by simp [Says, hx, hy]⟩
      · exact ⟨_, q, hstep, hsays, by simp [Says, hx, hy]⟩
  | x :: y :: z :: xs, hlen => cases r <;> simp [Rule.arity, arity] at hlen

end Rules

end TreeEarley

end DeductiveParsing
