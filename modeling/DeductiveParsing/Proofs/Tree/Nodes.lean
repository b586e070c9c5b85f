/-
Nodes of trees and their addresses.

* `Tree.ind`: a property holds of every tree once it is inherited from the children;
* `Address.eq_root_or_child`: an address is that of the root or of a child;
* `Tree.subtreeAt?_child`: the node at the address of a child is that child of the node above;
* `Tree.mem_nodes`: the nodes that are listed are those that have an address.
-/
import Mathlib.Tactic
import DeductiveParsing.Tree.Surgery

namespace DeductiveParsing

/-! ### Addresses -/

namespace Address

variable {a b : Address} {n m : ℕ}

lemma isRoot_iff : a.isRoot = true ↔ a = root := by
  obtain ⟨path⟩ := a
  simp [isRoot, root]

@[simp] lemma parent?_child : (a.child n).parent? = some a := by
  simp [parent?, child, isRoot]

@[simp] lemma place?_child : (a.child n).place? = some n := by
  simp [place?, child]

@[simp] lemma rightSibling?_child : (a.child n).rightSibling? = some (a.child (n + 1)) := by
  simp [rightSibling?, place?, child]

@[simp] lemma child_inj : a.child n = b.child m ↔ a = b ∧ n = m := by
  obtain ⟨p⟩ := a
  obtain ⟨q⟩ := b
  simp [child]

lemma child_ne_root : a.child n ≠ root := by
  simp [child, root]

/-- Every address is that of the root or of a child. -/
lemma eq_root_or_child (a : Address) : a = root ∨ ∃ (b : Address) (n : ℕ), a = b.child n := by
  obtain ⟨path⟩ := a
  rcases List.eq_nil_or_concat path with rfl | ⟨init, n, rfl⟩
  · exact Or.inl rfl
  · exact Or.inr ⟨⟨init⟩, n, by simp [child]⟩

lemma eq_child_of_parent? (h : a.parent? = some b) : ∃ n, a = b.child n := by
  rcases eq_root_or_child a with rfl | ⟨c, n, rfl⟩
  · cases h
  · rw [parent?_child, Option.some.injEq] at h
    exact ⟨n, by rw [h]⟩

/-- The address of the next sibling, from the address that has it. -/
lemma eq_child_of_rightSibling? (h : a.rightSibling? = some b) :
    ∃ (c : Address) (n : ℕ), a = c.child n ∧ b = c.child (n + 1) := by
  rcases eq_root_or_child a with rfl | ⟨c, n, rfl⟩
  · cases h
  · rw [rightSibling?_child, Option.some.injEq] at h
    exact ⟨c, n, rfl, h.symm⟩

end Address

namespace Tree

/-! ### Induction -/

/-- A property holds of every tree once it is inherited from the children. -/
@[elab_as_elim]
theorem ind {P : Tree → Prop}
    (h : ∀ label foot children, (∀ c ∈ children, P c) → P ⟨label, foot, children⟩) (t : Tree) :
    P t :=
  @Tree.rec P (fun cs => ∀ c ∈ cs, P c) h (fun _ hc => absurd hc List.not_mem_nil)
    (fun _ _ hc hcs d hd => (List.mem_cons.1 hd).elim (fun heq => heq ▸ hc) (hcs d)) t

/-! ### Navigation -/

variable {t u : Tree} {a b : Address}

lemma subtreeOn?_succ (t : Tree) (n : ℕ) (path : List ℕ) :
    t.subtreeOn? ((n + 1) :: path) = t.children[n]?.bind fun c => c.subtreeOn? path := by
  rw [subtreeOn?]
  cases t.children[n]? <;> rfl

/-- A path leads through every node on it. -/
lemma subtreeOn?_append (t : Tree) (path rest : List ℕ) :
    t.subtreeOn? (path ++ rest) = (t.subtreeOn? path).bind fun u => u.subtreeOn? rest := by
  induction path generalizing t with
  | nil =>
      rw [List.nil_append, subtreeOn?]
      rfl
  | cons n path ih =>
      cases n with
      | zero => simp [subtreeOn?]
      | succ n =>
          rw [List.cons_append, subtreeOn?_succ, subtreeOn?_succ]
          cases t.children[n]? with
          | none => rfl
          | some c => exact ih c

@[simp] lemma subtreeAt?_root (t : Tree) : t.subtreeAt? .root = some t := by
  rw [subtreeAt?, Address.root, subtreeOn?]

/-- The node at the address of a child is that child of the node above. -/
lemma subtreeAt?_child (t : Tree) (a : Address) (n : ℕ) :
    t.subtreeAt? (a.child (n + 1)) = (t.subtreeAt? a).bind fun u => u.children[n]? := by
  rw [subtreeAt?, Address.child, subtreeOn?_append, subtreeAt?]
  refine congrArg _ (funext fun u => ?_)
  rw [subtreeOn?_succ]
  cases u.children[n]? <;> simp [subtreeOn?]

lemma subtreeAt?_child_zero (t : Tree) (a : Address) : t.subtreeAt? (a.child 0) = none := by
  rw [subtreeAt?, Address.child, subtreeOn?_append]
  cases t.subtreeOn? a.path <;> simp [subtreeOn?]

/-- A child with an address belongs to a node with an address. -/
lemma exists_parent_of_subtreeAt?_child {n : ℕ} (h : t.subtreeAt? (a.child n) = some u) :
    ∃ k v, n = k + 1 ∧ t.subtreeAt? a = some v ∧ v.children[k]? = some u := by
  cases n with
  | zero =>
      rw [subtreeAt?_child_zero] at h
      cases h
  | succ k =>
      rw [subtreeAt?_child] at h
      obtain ⟨v, hv, hu⟩ := Option.bind_eq_some_iff.1 h
      exact ⟨k, v, rfl, hv, hu⟩

/-! ### All nodes -/

/-- The nodes below a node at `a` are those at the ends of paths from there. -/
lemma mem_nodesFrom : (b, u) ∈ nodesFrom a t ↔
    ∃ path, b.path = a.path ++ path ∧ t.subtreeOn? path = some u := by
  induction t using ind generalizing a b u with
  | h label foot children ih =>
      have hamong : ∀ (cs : List Tree) (n : ℕ), (∀ c ∈ cs, c ∈ children) →
          ((b, u) ∈ nodesAmong a n cs ↔ ∃ i path, b.path = a.path ++ (n + i) :: path ∧
            (cs[i]?.bind fun c => c.subtreeOn? path) = some u) := by
        intro cs
        induction cs with
        | nil => simp [nodesAmong]
        | cons c cs ihcs =>
            intro n hcs
            rw [nodesAmong, List.mem_append, ih c (hcs c List.mem_cons_self),
              ihcs (n + 1) fun d hd => hcs d (List.mem_cons_of_mem _ hd)]
            constructor
            · rintro (⟨path, hpath, hu⟩ | ⟨i, path, hpath, hu⟩)
              · exact ⟨0, path, by simpa [Address.child] using hpath, by simpa using hu⟩
              · exact ⟨i + 1, path, by rw [hpath]; congr 2; omega, by simpa using hu⟩
            · rintro ⟨i, path, hpath, hu⟩
              cases i with
              | zero =>
                  exact Or.inl ⟨path, by simpa [Address.child] using hpath, by simpa using hu⟩
              | succ i =>
                  exact Or.inr ⟨i, path, by rw [hpath]; congr 2; omega, by simpa using hu⟩
      rw [nodesFrom, List.mem_cons, hamong children 1 fun c hc => hc]
      constructor
      · rintro (heq | ⟨i, path, hpath, hu⟩)
        · obtain ⟨rfl, rfl⟩ := Prod.mk.inj heq
          exact ⟨[], by simp, by rw [subtreeOn?]⟩
        · exact ⟨(i + 1) :: path, by rw [hpath, Nat.add_comm], by rw [subtreeOn?_succ]; exact hu⟩
      · rintro ⟨path, hpath, hu⟩
        cases path with
        | nil =>
            rw [subtreeOn?, Option.some.injEq] at hu
            rw [List.append_nil] at hpath
            refine Or.inl (Prod.ext ?_ hu.symm)
            obtain ⟨p⟩ := a
            obtain ⟨q⟩ := b
            exact congrArg Address.mk hpath
        | cons n path =>
            cases n with
            | zero => simp [subtreeOn?] at hu
            | succ i =>
                rw [subtreeOn?_succ] at hu
                exact Or.inr ⟨i, path, by rw [hpath, Nat.add_comm], hu⟩

/-- The nodes that are listed are those that have an address. -/
theorem mem_nodes : (a, u) ∈ t.nodes ↔ t.subtreeAt? a = some u := by
  rw [nodes, mem_nodesFrom, subtreeAt?]
  simp [Address.root]

/-- The nodes of a tree are its root and the nodes of its children. -/
lemma map_snd_nodesFrom (a : Address) (t : Tree) :
    (nodesFrom a t).map Prod.snd =
      t :: t.children.flatMap fun c => c.nodes.map Prod.snd := by
  induction t using ind generalizing a with
  | h label foot children ih =>
      have hamong : ∀ (cs : List Tree) (n : ℕ), (∀ c ∈ cs, c ∈ children) →
          (nodesAmong a n cs).map Prod.snd = cs.flatMap fun c => c.nodes.map Prod.snd := by
        intro cs
        induction cs with
        | nil => exact fun _ _ => rfl
        | cons c cs ihcs =>
            intro n hcs
            have hc := hcs c List.mem_cons_self
            rw [nodesAmong, List.map_append, ihcs _ fun d hd => hcs d (List.mem_cons_of_mem _ hd),
              List.flatMap_cons, ih c hc, nodes, ih c hc]
      rw [nodesFrom, List.map_cons, hamong children 1 fun c hc => hc]

lemma map_snd_nodes (t : Tree) :
    t.nodes.map Prod.snd = t :: t.children.flatMap fun c => c.nodes.map Prod.snd :=
  map_snd_nodesFrom .root t

/-- A subtree is the tree or a subtree of a child. -/
lemma mem_map_snd_nodes : u ∈ t.nodes.map Prod.snd ↔
    u = t ∨ ∃ c ∈ t.children, u ∈ c.nodes.map Prod.snd := by
  rw [map_snd_nodes, List.mem_cons, List.mem_flatMap]

/-- A single node has no other subtrees. -/
lemma eq_of_mem_nodes (hleaf : t.children = []) (h : u ∈ t.nodes.map Prod.snd) : u = t := by
  rcases mem_map_snd_nodes.1 h with h | ⟨c, hc, -⟩
  · exact h
  · simp [hleaf] at hc

/-- A search finds a node with the property. -/
lemma exists_of_find? {p : Tree → Bool} (h : t.find? p = some a) :
    ∃ u, t.subtreeAt? a = some u ∧ p u = true := by
  rw [find?, Option.map_eq_some_iff] at h
  obtain ⟨⟨b, u⟩, hfind, rfl⟩ := h
  have hp : p u = true := by simpa using List.find?_some hfind
  exact ⟨u, mem_nodes.1 (List.mem_of_find?_eq_some hfind), hp⟩

/-- A search that finds nothing shows that no node has the property. -/
lemma find?_eq_none_iff {p : Tree → Bool} :
    t.find? p = none ↔ ∀ a u, t.subtreeAt? a = some u → p u = false := by
  rw [find?, Option.map_eq_none_iff, List.find?_eq_none]
  constructor
  · intro h a u hu
    simpa using h (a, u) (mem_nodes.2 hu)
  · rintro h ⟨a, u⟩ hu
    simpa using h a u (mem_nodes.1 hu)

end Tree

end DeductiveParsing
