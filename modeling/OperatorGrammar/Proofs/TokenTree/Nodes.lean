import OperatorGrammar.TokenTree

/-! # The nodes and the height of a token tree

`TokenTree.nodes` lists the subtrees of a tree, so that "every node" is a statement about the
members of a list, and `TokenTree.height` is the depth by recursion on the tree.  The depth, which
is computed with a list of nodes that are left, is the height (`depth_eq_height`). -/

namespace OperatorGrammar

namespace TokenTree

/-- What holds of a tree whenever it holds of the trees below its root holds of every tree. -/
@[elab_as_elim]
theorem induction {P : TokenTree → Prop}
    (node : ∀ name kind children, (∀ t ∈ children, P t) → P (.node name kind children))
    (t : TokenTree) : P t := by
  refine @TokenTree.rec P (fun ts => ∀ t ∈ ts, P t) node ?_ ?_ t
  · intro t ht
    cases ht
  · intro t ts ht hts u hu
    rcases List.mem_cons.mp hu with rfl | hu
    · exact ht
    · exact hts u hu

/-! ### Equality can be decided -/

theorem eq_of_beqList {ts : List TokenTree} (ih : ∀ t ∈ ts, ∀ u, beq t u = true ↔ t = u)
    (us : List TokenTree) : beqList ts us = true ↔ ts = us := by
  induction ts generalizing us with
  | nil => cases us <;> simp [beqList]
  | cons t ts iht =>
      rw [List.forall_mem_cons] at ih
      cases us with
      | nil => simp [beqList]
      | cons u us => rw [beqList, Bool.and_eq_true, ih.1, iht ih.2, List.cons.injEq]

theorem beq_eq_true (t : TokenTree) : ∀ u, beq t u = true ↔ t = u := by
  induction t using TokenTree.induction with
  | node name kind children ih =>
      rintro ⟨name', kind', children'⟩
      simp [beq, eq_of_beqList ih, and_assoc]

instance : DecidableEq TokenTree := fun t u => decidable_of_iff _ (beq_eq_true t u)

theorem top_injective {t u : TokenTree} (h : top t = top u) : t = u := by
  simpa [top] using h

/-! ### Nodes -/

mutual

/-- The subtrees of a tree, the tree itself first. -/
def nodes : TokenTree → List TokenTree
  | .node name kind children => .node name kind children :: nodesOfAll children

def nodesOfAll : List TokenTree → List TokenTree
  | [] => []
  | t :: ts => nodes t ++ nodesOfAll ts

end

theorem mem_nodesOfAll {n : TokenTree} {ts : List TokenTree} :
    n ∈ nodesOfAll ts ↔ ∃ t ∈ ts, n ∈ t.nodes := by
  induction ts with
  | nil => simp [nodesOfAll]
  | cons t ts ih => simp [nodesOfAll, ih]

theorem mem_nodes_self (t : TokenTree) : t ∈ t.nodes := by
  obtain ⟨name, kind, children⟩ := t
  rw [nodes]
  exact List.mem_cons_self

theorem nodes_subset_of_mem {t : TokenTree} {name : String} {kind : TokenKind}
    {children : List TokenTree} (h : t ∈ children) :
    t.nodes ⊆ (TokenTree.node name kind children).nodes := by
  intro n hn
  rw [nodes]
  exact List.mem_cons_of_mem _ (mem_nodesOfAll.mpr ⟨t, h, hn⟩)

/-- Every node of a tree has a property exactly if the root has it and so has every node of the
trees below. -/
theorem forall_mem_nodes {P : TokenTree → Prop} {name : String} {kind : TokenKind}
    {children : List TokenTree} :
    (∀ n ∈ (TokenTree.node name kind children).nodes, P n) ↔
      P (.node name kind children) ∧ ∀ t ∈ children, ∀ n ∈ t.nodes, P n := by
  rw [nodes, List.forall_mem_cons]
  apply and_congr_right
  intro _
  constructor
  · intro h t ht n hn
    exact h n (mem_nodesOfAll.mpr ⟨t, ht, hn⟩)
  · intro h n hn
    obtain ⟨t, ht, hn⟩ := mem_nodesOfAll.mp hn
    exact h t ht n hn

theorem nodes_subset {n t : TokenTree} (h : n ∈ t.nodes) : n.nodes ⊆ t.nodes := by
  induction t using TokenTree.induction with
  | node name kind children ih =>
      rw [nodes] at h
      rcases List.mem_cons.mp h with rfl | h
      · exact List.Subset.refl _
      · obtain ⟨t, ht, hn⟩ := mem_nodesOfAll.mp h
        exact List.Subset.trans (ih t ht hn) (nodes_subset_of_mem ht)

theorem mem_nodes_of_mem_children {c n t : TokenTree} (h : n ∈ t.nodes) (hc : c ∈ n.children) :
    c ∈ t.nodes := by
  obtain ⟨name, kind, children⟩ := n
  exact nodes_subset h (nodes_subset_of_mem hc c.mem_nodes_self)

/-! ### Height -/

mutual

/-- The number of nodes on the longest way down, counted from the root. -/
def height : TokenTree → Nat
  | .node _ _ children => 1 + heightOfAll children

def heightOfAll : List TokenTree → Nat
  | [] => 0
  | t :: ts => max (height t) (heightOfAll ts)

end

theorem height_pos (t : TokenTree) : 0 < t.height := by
  obtain ⟨name, kind, children⟩ := t
  rw [height]
  omega

theorem height_le_heightOfAll {t : TokenTree} {ts : List TokenTree} (h : t ∈ ts) :
    t.height ≤ heightOfAll ts := by
  induction ts with
  | nil => cases h
  | cons u us ih =>
      rw [heightOfAll]
      rcases List.mem_cons.mp h with rfl | h
      · exact Nat.le_max_left _ _
      · exact Nat.le_trans (ih h) (Nat.le_max_right _ _)

theorem height_lt_of_mem {t : TokenTree} {name : String} {kind : TokenKind}
    {children : List TokenTree} (h : t ∈ children) :
    t.height < (TokenTree.node name kind children).height := by
  have := height_le_heightOfAll h
  rw [height]
  omega

/-! ### The depth is the height -/

/-- The deepest level under nodes at known levels; a node at level `l` reaches down to the level
`l + height - 1`. -/
def reach : List (TokenTree × Nat) → Nat
  | [] => 0
  | (t, level) :: rest => max (level + t.height - 1) (reach rest)

theorem reach_append (work rest : List (TokenTree × Nat)) :
    reach (work ++ rest) = max (reach work) (reach rest) := by
  induction work with
  | nil => simp [reach]
  | cons w work ih =>
      obtain ⟨t, level⟩ := w
      simp only [List.cons_append, reach, ih]
      omega

theorem reach_atLevel (level : Nat) (ts : List TokenTree) (h : ts ≠ []) :
    reach (atLevel level ts) = level + heightOfAll ts - 1 := by
  induction ts with
  | nil => exact absurd rfl h
  | cons t ts ih =>
      cases ts with
      | nil => simp [atLevel, reach, heightOfAll]
      | cons u us =>
          have ih := ih (List.cons_ne_nil u us)
          have ht := height_pos t
          have hu := height_pos u
          simp only [atLevel, List.map_cons, reach, heightOfAll] at ih ⊢
          rw [ih]
          omega

/-- The nodes that are left reach as deep as the work list says, whatever order they come in. -/
theorem deepest_eq_reach (best : Nat) (work : List (TokenTree × Nat)) :
    deepest best work = max best (reach work) := by
  fun_induction deepest best work with
  | case1 best => simp [reach]
  | case2 best name kind children level rest ih =>
      rw [ih, reach_append, reach, height]
      by_cases h : children = []
      · subst h
        simp only [atLevel, List.map_nil, reach, heightOfAll]
        omega
      · have : 0 < heightOfAll children := by
          obtain ⟨t, ht⟩ := List.exists_mem_of_ne_nil children h
          exact Nat.lt_of_lt_of_le (height_pos t) (height_le_heightOfAll ht)
        rw [reach_atLevel _ _ h]
        omega

theorem depth_eq_height (t : TokenTree) : t.depth = t.height := by
  have := height_pos t
  rw [depth, deepest_eq_reach]
  simp only [reach]
  omega

end TokenTree

end OperatorGrammar
