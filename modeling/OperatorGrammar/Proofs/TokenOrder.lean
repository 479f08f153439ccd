import OperatorGrammar.Proofs.Reading
import OperatorGrammar.Proofs.Row.Build
import OperatorGrammar.Proofs.TokenTree.InOrder

/-! # Trees keep the tokens in their order

A row is read like a tree: an operand as its tree, an operator as its symbol.  Splitting a row
takes nothing out of it but the uses of a symbol (`inOrderOf_between`), and joining the pieces puts
these back between them (`Joins.inOrder`), so that the tree of a row reads as the row does
(`buildExpression_inOrder`).  Groups and calls put back their delimiters (`close_inOrder`).
Hence the in-order reading of a tree gives the tokens that it was built from
(`ofTokens_inOrder`). -/

namespace OperatorGrammar

namespace Item

variable (g : Grammar)

/-- The reading of an item of a row. -/
def inOrder : Item → List Mark
  | .operand m => m.tree.inOrder g
  | .operator token =>
    [if token.kind.isInfix then .between token.text else .word token.text token.kind]

def inOrderOf (row : List Item) : List Mark := row.flatMap (inOrder g)

variable {g}

theorem inOrderOf_cons (item : Item) (row : List Item) :
    inOrderOf g (item :: row) = item.inOrder g ++ inOrderOf g row :=
  List.flatMap_cons

theorem inOrderOf_append (row row' : List Item) :
    inOrderOf g (row ++ row') = inOrderOf g row ++ inOrderOf g row' :=
  List.flatMap_append

theorem inOrderOf_map_operator {kind : TokenKind} (hi : kind.isInfix = false) {tokens : List Token}
    (h : ∀ t ∈ tokens, t.kind = kind) :
    inOrderOf g (tokens.map .operator) = tokens.map fun t => .word t.text kind := by
  induction tokens with
  | nil => rfl
  | cons token tokens ih =>
      rw [List.forall_mem_cons] at h
      rw [List.map_cons, inOrderOf_cons, ih h.2, inOrder, h.1, hi]
      rfl

/-- Rows with uses of a symbol between them are read with the symbol between them. -/
theorem inOrderOf_between {symbol : String} {rows : List (List Item)} {row : List Item}
    (h : Between (fun token => token.kind.isInfix = true ∧ token.text = symbol) rows row) :
    inOrderOf g row = [Mark.between symbol].intercalate (rows.map (inOrderOf g)) := by
  induction h with
  | last row => rw [List.map_singleton, List.intercalate_singleton]
  | @cons rows row rest operator sort h ih =>
      obtain ⟨hk, rfl⟩ := sort
      have hne : rows.map (inOrderOf g) ≠ [] := by
        cases h <;> simp
      rw [List.map_cons, List.intercalate_cons_of_ne_nil hne, ← ih, inOrderOf_append,
        inOrderOf_cons, inOrder, if_pos hk, List.append_assoc]

end Item

namespace Grammar

open Item

variable {g : Grammar}

/-! ### Rows -/

/-- An infix operator stands between the operands that it joins, whichever way it joins them. -/
theorem Joins.inOrder {symbol : String} {kind : TokenKind} {operands : List Measured}
    {m : Measured} (h : Joins g symbol kind operands m) (hk : kind.isInfix = true) :
    m.tree.inOrder g =
      [Mark.between symbol].intercalate (operands.map fun x => x.tree.inOrder g) := by
  induction h with
  | all _ h =>
      obtain ⟨-, rfl⟩ := wrap_eq_ok.mp h
      rw [TokenTree.inOrder_of_isInfix hk, List.map_map]
      rfl
  | one _ m => rw [List.map_singleton, List.intercalate_singleton]
  | @fromLeft operands left right m hm _ hj h ih =>
      obtain ⟨-, rfl⟩ := wrap_eq_ok.mp h
      have hne : operands.map (fun x => x.tree.inOrder g) ≠ [] := by
        simpa using hj.ne_nil_of_not_isMultary hm
      rw [TokenTree.inOrder_of_isInfix hk, List.map_append,
        intercalate_append hne (by simp), ← ih]
      simp [List.intercalate_cons_cons]
  | @fromRight operands left right m hm _ hj h ih =>
      obtain ⟨-, rfl⟩ := wrap_eq_ok.mp h
      have hne : operands.map (fun x => x.tree.inOrder g) ≠ [] := by
        simpa using hj.ne_nil_of_not_isMultary hm
      have joined : [Mark.between symbol].intercalate
          ((left :: operands).map fun x => x.tree.inOrder g) =
            left.tree.inOrder g ++ [.between symbol] ++ right.tree.inOrder g := by
        rw [List.map_cons, List.intercalate_cons_of_ne_nil hne, ih]
      rw [TokenTree.inOrder_of_isInfix hk, joined]
      simp [List.intercalate_cons_cons]

theorem applyUnary_postUnary_inOrder {tokens : List Token} {m m' : Measured}
    (h : g.applyUnary .postUnary tokens m = .ok m') :
    m'.tree.inOrder g =
      m.tree.inOrder g ++ tokens.map fun t => .word t.text .postUnary := by
  induction tokens using List.reverseRecOn generalizing m' with
  | nil =>
      rw [applyUnary_nil, Except.ok.injEq] at h
      simp [h]
  | append_singleton tokens token ih =>
      obtain ⟨inner, hi, hw⟩ := applyUnary_concat.mp h
      obtain ⟨-, rfl⟩ := wrap_eq_ok.mp hw
      rw [List.map_singleton, TokenTree.inOrder_postUnary, ih hi, List.map_append,
        List.append_assoc]
      rfl

theorem applyUnary_preUnary_inOrder {tokens : List Token} {m m' : Measured}
    (h : g.applyUnary .preUnary tokens.reverse m = .ok m') :
    m'.tree.inOrder g =
      (tokens.map fun t => .word t.text .preUnary) ++ m.tree.inOrder g := by
  induction tokens generalizing m' with
  | nil =>
      rw [List.reverse_nil, applyUnary_nil, Except.ok.injEq] at h
      simp [h]
  | cons token tokens ih =>
      rw [List.reverse_cons] at h
      obtain ⟨inner, hi, hw⟩ := applyUnary_concat.mp h
      obtain ⟨-, rfl⟩ := wrap_eq_ok.mp hw
      rw [List.map_singleton, TokenTree.inOrder_preUnary, ih hi, List.map_cons, List.cons_append]

/-- The tree of a row reads as the row does. -/
theorem buildExpression_inOrder {row : List Item} {m : Measured}
    (h : g.buildExpression row = .ok m) : m.tree.inOrder g = inOrderOf g row := by
  refine buildExpression_induction (P := fun row m => m.tree.inOrder g = inOrderOf g row) ?_ ?_ h
  · intro row m _ h
    obtain ⟨prefixes, operand, suffixes, inner, rfl, hp, hs, hi, hm⟩ := buildOperand_eq_ok.mp h
    rw [applyUnary_preUnary_inOrder hm, applyUnary_postUnary_inOrder hi, inOrderOf_append,
      inOrderOf_cons, inOrderOf_map_operator rfl hp, inOrderOf_map_operator rfl hs]
    rfl
  · intro row operator operands m hl hp hj
    obtain ⟨hmem, -⟩ := loosest_eq_some hl
    have hk := (mem_infixTokens.mp hmem).2
    have same : operands.map (fun x => x.tree.inOrder g) =
        (splitAtSymbol operator.text row).map (inOrderOf g) := by
      rw [← List.forall₂_eq_eq_eq, List.forall₂_map_left_iff, List.forall₂_map_right_iff]
      exact List.Forall₂.flip (hp.imp fun _ _ h => h.2.2)
    rw [hj.inOrder hk, same, ← inOrderOf_between (between_splitAtSymbol operator.text row)]

/-! ### Groups and calls -/

/-- The readings of the arguments with separators between them are that of the content. -/
theorem intercalate_arguments (content : Measured) :
    [Mark.between g.argumentSeparator].intercalate
        (((content.arguments g.argumentSeparator).map Measured.tree).map (TokenTree.inOrder g)) =
      content.tree.inOrder g := by
  rw [Measured.arguments_map_tree]
  split
  · next h =>
    generalize content.tree = t at h
    obtain ⟨name, kind, children⟩ := t
    obtain ⟨hk, rfl⟩ := h
    exact (TokenTree.inOrder_of_isInfix hk children).symm
  · rw [List.map_singleton, List.intercalate_singleton]

end Grammar

def Enclosing.marks : Enclosing → List Mark
  | .group opener => [.word opener.text .opening]
  | .call function opener => [.word function.text .function, .word opener.text .opening]

variable {g : Grammar}

theorem Enclosing.forall₂_fits_marks {e : Enclosing} (h : e.Opens g) :
    List.Forall₂ (fun mark token => Mark.Fits g token mark) e.marks e.tokens := by
  cases e with
  | group opener => exact List.Forall₂.cons ⟨rfl, h⟩ List.Forall₂.nil
  | call function opener =>
      exact List.Forall₂.cons ⟨rfl, h.1⟩ (List.Forall₂.cons ⟨rfl, h.2.1⟩ List.Forall₂.nil)

/-- The tree of a group or a call reads as its delimiters around its content. -/
theorem close_inOrder {e : Enclosing} {content : List Item} {m : Measured} (opens : e.Opens g)
    (h : Reading.close g e content = .ok m) :
    m.tree.inOrder g = e.marks ++ (Item.inOrderOf g content ++ [.closer e.opener.text]) := by
  cases e with
  | group opener =>
      obtain ⟨inner, hb, hw⟩ := close_group_eq_ok.mp h
      obtain ⟨-, rfl⟩ := Grammar.wrap_eq_ok.mp hw
      rw [List.map_singleton, TokenTree.inOrder_opening, Grammar.buildExpression_inOrder hb]
      rfl
  | call function opener =>
      obtain ⟨-, -, ho⟩ := opens
      rcases close_call_eq_ok.mp h with ⟨rfl, hw⟩ | ⟨-, inner, hb, hw⟩
      · obtain ⟨-, rfl⟩ := Grammar.wrap_eq_ok.mp hw
        rw [TokenTree.inOrder_function, ← ho]
        rfl
      · obtain ⟨-, rfl⟩ := Grammar.wrap_eq_ok.mp hw
        rw [TokenTree.inOrder_function, Grammar.intercalate_arguments,
          Grammar.buildExpression_inOrder hb, ← ho]
        rfl

/-! ### Tokens -/

theorem Reads.forall₂_fits {n : Nat} {tokens : List Token} {row : List Item}
    (h : Reads g n tokens row) :
    List.Forall₂ (fun mark token => Mark.Fits g token mark) (Item.inOrderOf g row) tokens := by
  induction h with
  | nil => exact List.Forall₂.nil
  | @operand n token tokens row kind _ ih =>
      rw [Item.inOrderOf_cons, Item.inOrder, Measured.leaf, TokenTree.inOrder_leaf kind]
      exact List.Forall₂.cons ⟨rfl, rfl⟩ ih
  | @operator n token tokens row kind _ ih =>
      refine List.Forall₂.cons ?_ ih
      split
      · next hk => exact ⟨rfl, hk⟩
      · exact ⟨rfl, rfl⟩
  | @enclosed n e closer inner tokens content row m opens _ kind closes _ built _ ih ih' =>
      rw [Item.inOrderOf_cons, Item.inOrder, close_inOrder opens built]
      have hcloser : Mark.Fits g closer (.closer e.opener.text) := ⟨kind, closes⟩
      have := List.rel_append (List.rel_append (e.forall₂_fits_marks opens) ih)
        (List.Forall₂.cons hcloser ih')
      simpa using this

/-- **No token is lost, repeated or moved.**  The in-order reading of a tree that is built from
tokens gives these tokens one by one: their texts and roles, where a tree keeps them, infix uses of
the same symbols, and closers that belong to the openers of their groups. -/
theorem ofTokens_inOrder {tokens : List Token} {expression : TokenTree}
    (h : TokenTree.ofTokens g tokens = .ok (.top expression)) :
    List.Forall₂ (fun mark token => Mark.Fits g token mark) (expression.inOrder g) tokens := by
  obtain ⟨row, m, hr, hb, ht⟩ := ofTokens_eq_ok.mp h
  rw [TokenTree.top_injective ht, Grammar.buildExpression_inOrder hb]
  exact hr.forall₂_fits

theorem ofTokens_inOrder_sample :
    TokenTree.ofTokens Grammar.real sampleTokens = .ok (.top sampleTree) ∧
      List.Forall₂ (fun mark token => Mark.Fits Grammar.real token mark)
        (sampleTree.inOrder Grammar.real) sampleTokens :=
  ⟨ofTokens_sampleTokens, ofTokens_inOrder ofTokens_sampleTokens⟩

end OperatorGrammar
