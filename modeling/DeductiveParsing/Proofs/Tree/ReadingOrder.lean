/-
The nodes of a tree in reading order.

* `pairwise_nodes`: nodes are listed in reading order;
* `ListsNodes`, `listsNodes_nodes`: all nodes are listed, each once and in increasing order of the
  addresses;
* `IsFirst`, `find?_eq_some_iff_isFirst`: a search finds the first node with a property;
* `exists_family`: the parent and the next sibling of a node;
* `read_text_of_subtreeAt?`: the address of a node is read from its text.
-/
import DeductiveParsing.Proofs.Tree.Address

namespace DeductiveParsing.Tree

variable {t u : Tree} {a b : Address} {p : Tree → Bool} {P : Tree → Prop}

/-! ### All nodes -/

/-- Nodes below `a` have another place behind its path, which is not before that of the first child
in question. -/
lemma exists_place_of_mem_nodesAmong {n : ℕ} {cs : List Tree} {node : Address × Tree}
    (h : node ∈ nodesAmong a n cs) : ∃ m path, n ≤ m ∧ node.1.path = a.path ++ m :: path := by
  induction cs generalizing n with
  | nil => cases h
  | cons c cs ih =>
      rw [nodesAmong, List.mem_append] at h
      rcases h with h | h
      · obtain ⟨path, hpath, -⟩ := mem_nodesFrom.1 h
        exact ⟨n, path, le_rfl, by rw [hpath, Address.child, List.append_assoc]; rfl⟩
      · obtain ⟨m, path, hm, hpath⟩ := ih h
        exact ⟨m, path, Nat.le_of_succ_le hm, hpath⟩

/-- The nodes of a tree are listed in the order of their paths, wherever it stands. -/
lemma pairwise_nodesFrom (a : Address) (t : Tree) :
    (nodesFrom a t).Pairwise fun m n => m.1.path < n.1.path := by
  induction t using ind generalizing a with
  | h label foot children ih =>
      have hamong : ∀ (cs : List Tree) (n : ℕ), (∀ c ∈ cs, c ∈ children) →
          (nodesAmong a n cs).Pairwise fun m n => m.1.path < n.1.path := by
        intro cs
        induction cs with
        | nil => exact fun _ _ => .nil
        | cons c cs ihcs =>
            intro n hcs
            rw [nodesAmong, List.pairwise_append]
            refine ⟨ih c (hcs c List.mem_cons_self) _,
              ihcs _ fun d hd => hcs d (List.mem_cons_of_mem _ hd), fun x hx y hy => ?_⟩
            -- the two part below `a`, where the second one takes a later child
            obtain ⟨path, hpath, -⟩ := mem_nodesFrom.1 hx
            obtain ⟨m, path', hm, hpath'⟩ := exists_place_of_mem_nodesAmong hy
            rw [hpath, hpath', Address.child, List.append_assoc]
            exact List.append_left_lt (List.cons_lt_cons_iff.2 (Or.inl hm))
      rw [nodesFrom, List.pairwise_cons]
      refine ⟨fun node hnode => ?_, hamong children 1 fun c hc => hc⟩
      obtain ⟨m, path, -, hpath⟩ := exists_place_of_mem_nodesAmong hnode
      rw [hpath]
      conv_lhs => rw [← List.append_nil a.path]
      exact List.append_left_lt (List.nil_lt_cons _ _)

/-- Nodes are listed in reading order. -/
theorem pairwise_nodes (t : Tree) : t.nodes.Pairwise fun m n => m.1.Precedes n.1 :=
  (pairwise_nodesFrom .root t).imp Address.path_lt_path_iff.1

/-- Whether all nodes of a tree are listed with their addresses, each once and in increasing order of
the addresses. -/
structure ListsNodes (t : Tree) (nodes : List (Address × Tree)) : Prop where
  mem_iff : ∀ a u, (a, u) ∈ nodes ↔ t.subtreeAt? a = some u
  nodup : (nodes.map Prod.fst).Nodup
  increasing : (nodes.map Prod.fst).Pairwise fun a b => compare a b = .lt

lemma listsNodes_nodes (t : Tree) : t.ListsNodes t.nodes where
  mem_iff _ _ := mem_nodes
  nodup := List.pairwise_map.2 (t.pairwise_nodes.imp Address.Precedes.ne)
  increasing := List.pairwise_map.2 (t.pairwise_nodes.imp Address.compare_eq_lt_iff.2)

/-! ### The first node with a property -/

/-- Whether `a` is the address of the first node in reading order that has a property. -/
structure IsFirst (t : Tree) (P : Tree → Prop) (a : Address) : Prop where
  exists_node : ∃ u, t.subtreeAt? a = some u ∧ P u
  eq_or_precedes : ∀ b u, t.subtreeAt? b = some u → P u → a = b ∨ a.Precedes b

lemma IsFirst.unique (ha : t.IsFirst P a) (hb : t.IsFirst P b) : a = b := by
  obtain ⟨u, hu, hPu⟩ := ha.exists_node
  obtain ⟨v, hv, hPv⟩ := hb.exists_node
  rcases ha.eq_or_precedes b v hv hPv with h | h
  · exact h
  · exact ((hb.eq_or_precedes a u hu hPu).resolve_right h.not_precedes).symm

/-- The first node in the list that passes a test for a property is the first one that has it. -/
lemma isFirst_of_find?_nodes {q : Address × Tree → Bool} {node : Address × Tree}
    (hq : ∀ b v, t.subtreeAt? b = some v → (q (b, v) = true ↔ P v))
    (h : t.nodes.find? q = some node) : t.IsFirst P node.1 := by
  obtain ⟨a, u⟩ := node
  have hu := mem_nodes.1 (List.mem_of_find?_eq_some h)
  refine ⟨⟨u, hu, (hq a u hu).1 (List.find?_some h)⟩, fun b v hv hPv => ?_⟩
  obtain ⟨-, before, behind, hnodes, hbefore⟩ := List.find?_eq_some_iff_append.1 h
  have hmem := mem_nodes.2 hv
  have hsorted := t.pairwise_nodes
  rw [hnodes] at hmem hsorted
  rcases List.mem_append.1 hmem with hmem | hmem
  · simpa [(hq b v hv).2 hPv] using hbefore _ hmem
  · rcases List.mem_cons.1 hmem with heq | hmem
    · exact Or.inl (congrArg Prod.fst heq).symm
    · exact Or.inr (List.rel_of_pairwise_cons (List.pairwise_append.1 hsorted).2.1 hmem)

lemma isFirst_of_find? (h : t.find? p = some a) : t.IsFirst (fun u => p u = true) a := by
  rw [find?, Option.map_eq_some_iff] at h
  obtain ⟨node, hfind, rfl⟩ := h
  exact isFirst_of_find?_nodes (fun _ _ _ => Iff.rfl) hfind

/-- A search finds the first node with the property. -/
theorem find?_eq_some_iff_isFirst : t.find? p = some a ↔ t.IsFirst (fun u => p u = true) a := by
  refine ⟨isFirst_of_find?, fun h => ?_⟩
  obtain ⟨u, hu, hpu⟩ := h.exists_node
  cases hfind : t.find? p with
  | none =>
      rw [find?_eq_none_iff.1 hfind a u hu] at hpu
      cases hpu
  | some b => rw [(isFirst_of_find? hfind).unique h]

/-- If any node has a property, there is a first one. -/
lemma exists_isFirst_iff : (∃ a, t.IsFirst P a) ↔ ∃ a u, t.subtreeAt? a = some u ∧ P u := by
  classical
  refine ⟨fun ⟨a, h⟩ => ⟨a, h.exists_node⟩, fun ⟨a, u, hu, hPu⟩ => ?_⟩
  cases hfind : t.find? fun u => decide (P u) with
  | none => exact absurd hPu (of_decide_eq_false (find?_eq_none_iff.1 hfind a u hu))
  | some b => exact ⟨b, by simpa using isFirst_of_find? hfind⟩

/-! ### Substitution -/

/-- Substitution takes place at the first open leaf with the label of the root of the other tree. -/
lemma exists_substituteLeftmost?_of_isFirst
    (h : t.IsFirst (fun v => v.isOpen = true ∧ v.label = u.label) a) :
    ∃ t', t.replaceAt? a u = some t' ∧ t.substituteLeftmost? u = some t' := by
  obtain ⟨v, hv, -⟩ := h.exists_node
  have hfind : (t.find? fun v => v.isOpen && v.label == u.label) = some a := by
    rw [find?_eq_some_iff_isFirst]
    simpa using h
  obtain ⟨t', ht'⟩ := exists_replaceAt?_iff.2 ⟨v, hv⟩
  exact ⟨t', ht', by rw [substituteLeftmost?, hfind]; exact ht'⟩

lemma substituteLeftmost?_eq_none
    (h : ¬∃ a v, t.subtreeAt? a = some v ∧ v.isOpen = true ∧ v.label = u.label) :
    t.substituteLeftmost? u = none := by
  rw [Option.eq_none_iff_forall_ne_some]
  intro t' ht'
  obtain ⟨a, v, hv, hopen, hlabel, -⟩ := substituteLeftmost?_eq_some ht'
  exact h ⟨a, v, hv, hopen, hlabel⟩

/-! ### Parents and siblings -/

/-- The parent of a node is a node, and the next sibling is one if the parent has a further child. -/
lemma exists_family (hu : t.subtreeAt? a = some u) (ha : a ≠ .root) :
    ∃ p r v n, a.parent? = some p ∧ a.rightSibling? = some r ∧ a.place? = some (n + 1) ∧
      t.subtreeAt? p = some v ∧ v.children[n]? = some u ∧
      ((∃ w, t.subtreeAt? r = some w) ↔ n + 1 < v.children.length) := by
  obtain ⟨p, m, rfl⟩ := (Address.eq_root_or_child a).resolve_left ha
  obtain ⟨n, v, rfl, hv, hchild⟩ := exists_parent_of_subtreeAt?_child hu
  refine ⟨p, p.child (n + 2), v, n, Address.parent?_child, Address.rightSibling?_child,
    Address.place?_child, hv, hchild, ?_⟩
  rw [subtreeAt?_child, hv, Option.bind_some, ← Option.isSome_iff_exists, isSome_getElem?]

/-! ### Texts of addresses -/

/-- The places on the path to a node are places of children. -/
lemma exists_le_length_of_mem_path {path : List ℕ} {n : ℕ} (hu : t.subtreeOn? path = some u)
    (hn : n ∈ path) : ∃ q v, t.subtreeOn? q = some v ∧ 0 < n ∧ n ≤ v.children.length := by
  induction path generalizing t with
  | nil => cases hn
  | cons m path ih =>
      cases m with
      | zero => simp [subtreeOn?] at hu
      | succ k =>
          rw [subtreeOn?_succ] at hu
          obtain ⟨c, hc, hu⟩ := Option.bind_eq_some_iff.1 hu
          rcases List.mem_cons.1 hn with rfl | hn
          · exact ⟨[], t, rfl, Nat.succ_pos k, (List.getElem?_eq_some_iff.1 hc).1⟩
          · obtain ⟨q, v, hv, hplace⟩ := ih hu hn
            exact ⟨(k + 1) :: q, v, by rw [subtreeOn?_succ, hc]; exact hv, hplace⟩

/-- The address of every node is read from its text, if no node has more children than an index can
count. -/
lemma read_text_of_subtreeAt?
    (hcount : ∀ a u, t.subtreeAt? a = some u → u.children.length < Text.indexBound)
    (hu : t.subtreeAt? a = some u) : Address.read a.text = .ok a := by
  rw [Address.read_text_iff]
  intro n hn
  obtain ⟨q, v, hv, hpos, hle⟩ := exists_le_length_of_mem_path hu hn
  exact ⟨hpos, hle.trans_lt (hcount ⟨q⟩ v hv)⟩

end DeductiveParsing.Tree
