import OperatorGrammar.Proofs.Precedence
import OperatorGrammar.Proofs.TokenOrder

/-! # The tokens that nodes come from

Every node of a tree is read once in the in-order reading of the tree (`mark_mem_inOrder`), and this
reading is the tokens that the tree was built from.  So each node has its text and its role from a
token (`exists_token_of_mem_nodes`). -/

namespace OperatorGrammar

/-! ### Members of joined lists -/

section intercalate

variable {α : Type} {separator list : List α} {lists : List (List α)} {x : α}

theorem mem_intercalate_of_mem (hl : list ∈ lists) (hx : x ∈ list) :
    x ∈ separator.intercalate lists := by
  induction lists with
  | nil => cases hl
  | cons first rest ih =>
      cases rest with
      | nil =>
          rw [List.intercalate_singleton]
          rwa [← List.mem_singleton.mp hl]
      | cons second rest =>
          rw [List.intercalate_cons_cons, List.mem_append, List.mem_append]
          rcases List.mem_cons.mp hl with rfl | hl
          · exact Or.inl (Or.inl hx)
          · exact Or.inr (ih hl)

theorem mem_intercalate_of_two_le (h : 2 ≤ lists.length) (hx : x ∈ separator) :
    x ∈ separator.intercalate lists := by
  match lists, h with
  | first :: second :: rest, _ =>
      rw [List.intercalate_cons_cons, List.mem_append, List.mem_append]
      exact Or.inl (Or.inr hx)

end intercalate

variable {g : Grammar} {tokens : List Token} {n t expression : TokenTree}

namespace TokenTree

/-- The mark that the root of a tree leaves in the reading of the tree. -/
def mark (t : TokenTree) : Mark :=
  if t.kind.isInfix then .between t.name else .word t.name t.kind

theorem mark_of_isInfix {name : String} {kind : TokenKind} {children : List TokenTree}
    (h : kind.isInfix = true) : (TokenTree.node name kind children).mark = .between name :=
  if_pos h

theorem mark_of_not_isInfix {name : String} {kind : TokenKind} {children : List TokenTree}
    (h : ¬ kind.isInfix = true) : (TokenTree.node name kind children).mark = .word name kind :=
  if_neg h

theorem mark_mem_inOrder_self (h : g.RespectsOrder t) : t.mark ∈ t.inOrder g := by
  obtain ⟨name, kind, children⟩ := t
  by_cases hk : kind.isInfix = true
  · have two := ((Grammar.respectsOrder_of_isInfix hk).mp h).two_le_length
    rw [inOrder_of_isInfix hk, mark_of_isInfix hk]
    exact mem_intercalate_of_two_le (by rwa [List.length_map]) List.mem_cons_self
  · rw [mark_of_not_isInfix hk]
    cases kind with
    | binary | multary => exact absurd rfl hk
    | _ => simp [inOrder]

theorem inOrder_subset_of_mem {name : String} {kind : TokenKind} {children : List TokenTree}
    (h : g.RespectsOrder (.node name kind children)) (ht : t ∈ children) :
    t.inOrder g ⊆ (TokenTree.node name kind children).inOrder g := by
  have hmem : t.inOrder g ∈ children.map (inOrder g) := List.mem_map_of_mem ht
  have inFlatten : t.inOrder g ⊆ (children.map (inOrder g)).flatten := fun _ hx =>
    List.mem_flatten_of_mem hmem hx
  intro mark hx
  cases kind with
  | number | identifier =>
      rw [show children = [] from h] at ht
      cases ht
  | closing | top => exact absurd h id
  | binary | multary =>
      rw [inOrder_of_isInfix rfl]
      exact mem_intercalate_of_mem hmem hx
  | preUnary | postUnary | opening =>
      simp only [inOrder, inOrders_eq_map]
      simp [inFlatten hx]
  | function =>
      rw [inOrder_function]
      simp [mem_intercalate_of_mem hmem hx]

/-- Every node leaves its mark in the reading of a tree. -/
theorem mark_mem_inOrder (h : ∀ n ∈ t.nodes, g.RespectsOrder n) :
    ∀ n ∈ t.nodes, n.mark ∈ t.inOrder g := by
  induction t using TokenTree.induction with
  | node name kind children ih =>
      obtain ⟨hroot, hbelow⟩ := forall_mem_nodes.mp h
      exact forall_mem_nodes.mpr ⟨mark_mem_inOrder_self hroot, fun t ht n hn =>
        inOrder_subset_of_mem hroot ht (ih t ht (hbelow t ht) n hn)⟩

end TokenTree

/-- **Every node comes from a token**, which has its text and its role; of an infix operator only
that it is one is kept. -/
theorem exists_token_of_mem_nodes (h : TokenTree.ofTokens g tokens = .ok (.top expression)) :
    ∀ n ∈ expression.nodes, ∃ token ∈ tokens, token.text = n.name ∧
      (token.kind = n.kind ∨ token.kind.isInfix = true ∧ n.kind.isInfix = true) := by
  obtain ⟨row, m, hreads, hbuilt, htop⟩ := ofTokens_eq_ok.mp h
  rw [TokenTree.top_injective htop]
  rintro ⟨name, kind, children⟩ hn
  have ordered := (Grammar.buildExpression_ordered (Grammar.orderedRow_of_reads hreads) hbuilt).1
  have hmark := TokenTree.mark_mem_inOrder ordered _ hn
  rw [Grammar.buildExpression_inOrder hbuilt] at hmark
  obtain ⟨token, htoken, fits⟩ := exists_mem_of_forall₂ hreads.forall₂_fits.flip hmark
  refine ⟨token, htoken, ?_⟩
  by_cases hk : kind.isInfix = true
  · rw [TokenTree.mark_of_isInfix hk] at fits
    exact ⟨fits.1, Or.inr ⟨fits.2, hk⟩⟩
  · rw [TokenTree.mark_of_not_isInfix hk] at fits
    exact ⟨fits.1, Or.inl fits.2⟩

end OperatorGrammar
