import OperatorGrammar.Proofs.Reading
import OperatorGrammar.Proofs.Row.Build

/-! # Trees that are built respect the order of operations

The operands of an infix operator are the trees of the pieces between its uses.  An infix operator
at the root of such a tree is one of the piece, so that it binds more tightly than the loosest
operator of the row (`buildExpression_ordered`), and joining the operands keeps to the side on
which the operator groups (`Joins.ordered`).  Groups and calls are trees that are built before,
and the arguments of a call are the operands of a separator or one tree (`close_ordered`).  Hence
every node of a tree that is built from tokens respects the order of operations
(`ofTokens_respectsOrder`). -/

namespace OperatorGrammar

open Item

/-- The roles of the operands of a row before unary operators are applied. -/
def TokenKind.isAtom : TokenKind → Bool
  | .number | .identifier | .opening | .function => true
  | _ => false

theorem TokenKind.not_isInfix_of_isAtom {kind : TokenKind} (h : kind.isAtom = true) :
    kind.isInfix = false ∧ kind ≠ .preUnary := by
  cases kind with
  | number | identifier | opening | function => exact ⟨rfl, TokenKind.noConfusion⟩
  | _ => cases h

namespace Grammar

variable {g : Grammar}

/-- Every node of a tree respects the order of operations. -/
def Ordered (g : Grammar) (t : TokenTree) : Prop := ∀ n ∈ t.nodes, g.RespectsOrder n

theorem ordered_node {name : String} {kind : TokenKind} {children : List TokenTree} :
    g.Ordered (.node name kind children) ↔
      g.RespectsOrder (.node name kind children) ∧ ∀ t ∈ children, g.Ordered t :=
  TokenTree.forall_mem_nodes

theorem respectsOrder_of_isInfix {name : String} {kind : TokenKind} {children : List TokenTree}
    (h : kind.isInfix = true) :
    g.RespectsOrder (.node name kind children) ↔ g.OperandsOrdered name children := by
  cases kind with
  | binary | multary => exact Iff.rfl
  | _ => cases h

theorem admits_self {symbol : String} {kind : TokenKind} {children : List TokenTree} :
    g.Admits symbol true (.node symbol kind children) :=
  fun _ => Or.inr ⟨rfl, rfl⟩

/-! ### Infix operators -/

section joins

variable {symbol : String} {kind : TokenKind} {operands : List Measured} {m : Measured}

theorem Joins.root (h : Joins g symbol kind operands m) (two : 2 ≤ operands.length) :
    m.tree.name = symbol ∧ m.tree.kind = kind := by
  cases h with
  | one => simp at two
  | all _ h | fromLeft _ _ _ h | fromRight _ _ _ h =>
      obtain ⟨-, rfl⟩ := wrap_eq_ok.mp h
      exact ⟨rfl, rfl⟩

theorem ordered_pair (hk : kind.isInfix = true) (hm : ¬ g.isMultary symbol = true)
    {left right : TokenTree} (hl : g.Ordered left) (hr : g.Ordered right)
    (admitsLeft : g.Admits symbol (!g.isRightAssociative symbol) left)
    (admitsRight : g.Admits symbol (g.isRightAssociative symbol) right) :
    g.Ordered (.node symbol kind [left, right]) := by
  refine ordered_node.mpr ⟨?_, ?_⟩
  · rw [respectsOrder_of_isInfix hk, operandsOrdered_of_not_isMultary hm]
    exact ⟨left, right, rfl, admitsLeft, admitsRight⟩
  · exact List.forall_mem_cons.mpr ⟨hl, List.forall_mem_singleton.mpr hr⟩

/-- Joining operands that bind more tightly respects the order of operations, and what has been
joined may stand on the side on which the operator groups. -/
theorem Joins.ordered (h : Joins g symbol kind operands m) (hk : kind.isInfix = true)
    (two : g.isMultary symbol = true → 2 ≤ operands.length)
    (ho : ∀ x ∈ operands, g.Ordered x.tree ∧ g.Admits symbol false x.tree) :
    g.Ordered m.tree ∧ g.Admits symbol true m.tree := by
  induction h with
  | @all operands m hm h =>
      obtain ⟨-, rfl⟩ := wrap_eq_ok.mp h
      refine ⟨ordered_node.mpr ⟨?_, ?_⟩, admits_self⟩
      · rw [respectsOrder_of_isInfix hk, operandsOrdered_of_isMultary hm, List.length_map]
        exact ⟨two hm, List.forall_mem_map.mpr fun x hx => (ho x hx).2⟩
      · exact List.forall_mem_map.mpr fun x hx => (ho x hx).1
  | one _ m =>
      obtain ⟨h1, h2⟩ := ho m List.mem_cons_self
      exact ⟨h1, h2.of_false⟩
  | @fromLeft operands left right m hm hr _ h ih =>
      -- What has been joined so far is the left operand, where the operator groups.
      obtain ⟨h1, h2⟩ := ih (fun h => absurd h hm) fun x hx => ho x (List.mem_append_left _ hx)
      obtain ⟨h3, h4⟩ := ho right (by simp)
      obtain ⟨-, rfl⟩ := wrap_eq_ok.mp h
      rw [Bool.not_eq_true] at hr
      refine ⟨ordered_pair hk hm h1 h3 ?_ ?_, admits_self⟩
      · rw [hr]
        exact h2
      · rw [hr]
        exact h4
  | @fromRight operands left right m hm hr _ h ih =>
      obtain ⟨h1, h2⟩ := ih (fun h => absurd h hm) fun x hx => ho x (List.mem_cons_of_mem _ hx)
      obtain ⟨h3, h4⟩ := ho left List.mem_cons_self
      obtain ⟨-, rfl⟩ := wrap_eq_ok.mp h
      refine ⟨ordered_pair hk hm h3 h1 ?_ ?_, admits_self⟩
      · rw [hr]
        exact h4
      · rw [hr]
        exact h2

end joins

/-! ### Rows -/

/-- The order of operations is respected in the operands of a row. -/
def OrderedRow (g : Grammar) (row : List Item) : Prop :=
  ∀ m, .operand m ∈ row → m.tree.kind.isAtom = true ∧ g.Ordered m.tree

theorem OrderedRow.piece {symbol : String} {row piece : List Item} (h : g.OrderedRow row)
    (hp : piece ∈ splitAtSymbol symbol row) : g.OrderedRow piece :=
  fun m hm => h m (mem_of_mem_piece hp hm).1

/-- Unary operators stand over trees without infix operators at the root, and a suffix does not
stand over a prefix. -/
theorem buildOperand_ordered {row : List Item} {m : Measured} (hr : g.OrderedRow row)
    (h : g.buildOperand row = .ok m) : g.Ordered m.tree ∧ m.tree.kind.isInfix = false := by
  obtain ⟨prefixes, operand, suffixes, inner, rfl, -, -, hs, hp⟩ := buildOperand_eq_ok.mp h
  obtain ⟨ha, ho⟩ := hr operand (by simp)
  have inside : g.Ordered inner.tree ∧ inner.tree.kind.isInfix = false ∧
      inner.tree.kind ≠ .preUnary := by
    refine applyUnary_preserves (P := fun t => g.Ordered t ∧ t.kind.isInfix = false ∧
      t.kind ≠ .preUnary) hs ⟨ho, TokenKind.not_isInfix_of_isAtom ha⟩ ?_
    rintro name t ⟨h1, h2⟩
    refine ⟨ordered_node.mpr ⟨⟨rfl, ?_⟩, ?_⟩, rfl, TokenKind.noConfusion⟩
    · exact List.forall_mem_singleton.mpr h2
    · exact List.forall_mem_singleton.mpr h1
  refine applyUnary_preserves (P := fun t => g.Ordered t ∧ t.kind.isInfix = false) hp
    ⟨inside.1, inside.2.1⟩ ?_
  rintro name t ⟨h1, h2⟩
  refine ⟨ordered_node.mpr ⟨⟨rfl, ?_⟩, ?_⟩, rfl⟩
  · exact List.forall_mem_singleton.mpr h2
  · exact List.forall_mem_singleton.mpr h1

/-- The tree of a row respects the order of operations if its operands do, and an infix operator at
its root is one of the row. -/
theorem buildExpression_ordered {row : List Item} {m : Measured} (hr : g.OrderedRow row)
    (h : g.buildExpression row = .ok m) :
    g.Ordered m.tree ∧
      (m.tree.kind.isInfix = true → ∃ token ∈ infixTokens row, token.text = m.tree.name) := by
  refine buildExpression_induction (P := fun row m => g.OrderedRow row → g.Ordered m.tree ∧
    (m.tree.kind.isInfix = true → ∃ token ∈ infixTokens row, token.text = m.tree.name)) ?_ ?_ h hr
  · intro row m _ h hr
    obtain ⟨h1, h2⟩ := buildOperand_ordered hr h
    exact ⟨h1, by simp [h2]⟩
  · intro row operator operands m hl hp hj hr
    obtain ⟨hmem, hloose⟩ := loosest_eq_some hl
    have two : 2 ≤ operands.length := hp.length_eq ▸ two_le_length_splitAtSymbol hmem
    have ho : ∀ x ∈ operands, g.Ordered x.tree ∧ g.Admits operator.text false x.tree := by
      intro x hx
      obtain ⟨piece, hpiece, -, -, ih⟩ := exists_mem_of_forall₂ hp hx
      obtain ⟨h1, h2⟩ := ih (hr.piece hpiece)
      refine ⟨h1, fun hk => ?_⟩
      -- The root of an operand is an operator of its piece, so it is not the one that splits.
      obtain ⟨token, ht, hname⟩ := h2 hk
      obtain ⟨ht, hne⟩ := mem_infixTokens_piece hpiece ht
      rw [← hname]
      exact Or.inl ((hloose token ht).resolve_left hne)
    have hk := (mem_infixTokens.mp hmem).2
    refine ⟨(hj.ordered hk (fun _ => two) ho).1, fun _ => ?_⟩
    exact ⟨operator, hmem, (hj.root two).1.symm⟩

/-! ### Groups and calls -/

theorem argumentsOrdered_arguments {content : Measured} (h : g.Ordered content.tree) :
    g.ArgumentsOrdered ((content.arguments g.argumentSeparator).map Measured.tree) ∧
      ∀ t ∈ (content.arguments g.argumentSeparator).map Measured.tree, g.Ordered t := by
  rw [Measured.arguments_map_tree]
  split
  · next hs =>
    generalize content.tree = t at h hs
    obtain ⟨name, kind, children⟩ := t
    obtain ⟨h1, h2⟩ := ordered_node.mp h
    obtain ⟨hk, rfl⟩ := hs
    exact ⟨Or.inr (Or.inr ((respectsOrder_of_isInfix hk).mp h1)), h2⟩
  · next hs =>
    refine ⟨Or.inr (Or.inl ⟨rfl, ?_⟩), ?_⟩
    · exact List.forall_mem_singleton.mpr hs
    · exact List.forall_mem_singleton.mpr h

theorem close_ordered {e : Enclosing} {content : List Item} {m : Measured}
    (hr : g.OrderedRow content) (h : Reading.close g e content = .ok m) :
    m.tree.kind.isAtom = true ∧ g.Ordered m.tree := by
  cases e with
  | group opener =>
      obtain ⟨inner, hb, hw⟩ := close_group_eq_ok.mp h
      obtain ⟨-, rfl⟩ := wrap_eq_ok.mp hw
      refine ⟨rfl, ordered_node.mpr ⟨rfl, ?_⟩⟩
      exact List.forall_mem_singleton.mpr (buildExpression_ordered hr hb).1
  | call function opener =>
      rcases close_call_eq_ok.mp h with ⟨-, hw⟩ | ⟨-, inner, hb, hw⟩
      · obtain ⟨-, rfl⟩ := wrap_eq_ok.mp hw
        exact ⟨rfl, ordered_node.mpr ⟨Or.inl rfl, by simp⟩⟩
      · obtain ⟨-, rfl⟩ := wrap_eq_ok.mp hw
        exact ⟨rfl, ordered_node.mpr (argumentsOrdered_arguments (buildExpression_ordered hr hb).1)⟩

theorem OrderedRow.cons_operator {token : Token} {row : List Item} (h : g.OrderedRow row) :
    g.OrderedRow (.operator token :: row) :=
  fun m hm => h m (by simpa using hm)

theorem OrderedRow.cons_operand {m : Measured} {row : List Item} (h : g.OrderedRow row)
    (hm : m.tree.kind.isAtom = true ∧ g.Ordered m.tree) : g.OrderedRow (.operand m :: row) := by
  intro m' hm'
  rcases List.mem_cons.mp hm' with he | hm'
  · rw [Item.operand.inj he]
    exact hm
  · exact h m' hm'

theorem orderedRow_of_reads {n : Nat} {tokens : List Token} {row : List Item}
    (h : Reads g n tokens row) : g.OrderedRow row := by
  induction h with
  | nil => simp [OrderedRow]
  | @operand n token tokens row kind _ ih =>
      refine ih.cons_operand ?_
      rcases kind with kind | kind <;> rw [kind] <;> exact ⟨rfl, ordered_node.mpr ⟨rfl, by simp⟩⟩
  | operator _ _ ih => exact ih.cons_operator
  | enclosed _ _ _ _ _ built _ content ih => exact ih.cons_operand (close_ordered content built)

end Grammar

/-- **Every node of a tree that is built from tokens respects the order of operations**, whatever
the tokens are and whatever the grammar says about symbols. -/
theorem ofTokens_respectsOrder {g : Grammar} {tokens : List Token} {expression : TokenTree}
    (h : TokenTree.ofTokens g tokens = .ok (.top expression)) :
    ∀ n ∈ expression.nodes, g.RespectsOrder n := by
  obtain ⟨row, m, hr, hb, ht⟩ := ofTokens_eq_ok.mp h
  rw [TokenTree.top_injective ht]
  exact (Grammar.buildExpression_ordered (Grammar.orderedRow_of_reads hr) hb).1

theorem ofTokens_respectsOrder_sample :
    TokenTree.ofTokens Grammar.real sampleTokens = .ok (.top sampleTree) ∧
      ∀ n ∈ sampleTree.nodes, Grammar.real.RespectsOrder n :=
  ⟨ofTokens_sampleTokens, ofTokens_respectsOrder ofTokens_sampleTokens⟩

end OperatorGrammar
