import OperatorGrammar.Proofs.Row.Build

/-! # Which rows have a tree

A row has a tree only if it is operands with their unary operators, one after another, and one
infix operator between each and the next (`alternates_of_buildExpression`).  A row of that shape
may still be refused for its depth or for an operator without precedence, but for nothing else:
`Refuses` lists the causes of failure and `buildExpression_refuses` says that there is no other. -/

namespace OperatorGrammar

open Item

/-- Whether an error says that a limit of the grammar is exceeded, rather than that a text has not
the shape of an expression: that of nesting, or that of the operators that have a precedence. -/
def ParseError.IsLimit : ParseError → Prop
  | .nestingTooDeep _ | .noPrecedence _ => True
  | _ => False

/-- One operand between its prefixes and its suffixes. -/
def Single (row : List Item) : Prop :=
  ∃ (prefixes : List Token) (operand : Measured) (suffixes : List Token),
    row = prefixes.map .operator ++ .operand operand :: suffixes.map .operator ∧
      (∀ t ∈ prefixes, t.kind = .preUnary) ∧ ∀ t ∈ suffixes, t.kind = .postUnary

/-- Operands with their unary operators, and infix operators between them. -/
inductive Alternates : List Item → Prop
  | single {row : List Item} : Single row → Alternates row
  | cons {row rest : List Item} {operator : Token} (kind : operator.kind.isInfix = true) :
      Single row → Alternates rest → Alternates (row ++ .operator operator :: rest)

theorem infixTokens_map_operator {kind : TokenKind} (hi : kind.isInfix = false)
    {tokens : List Token} (h : ∀ t ∈ tokens, t.kind = kind) :
    infixTokens (tokens.map .operator) = [] := by
  unfold infixTokens
  rw [List.filterMap_eq_nil_iff]
  intro item hitem
  obtain ⟨token, ht, rfl⟩ := List.mem_map.mp hitem
  rw [infixToken?, h token ht, hi]
  rfl

theorem Single.infixTokens {row : List Item} (h : Single row) : infixTokens row = [] := by
  obtain ⟨prefixes, operand, suffixes, rfl, hp, hs⟩ := h
  rw [infixTokens_append, infixTokens_map_operator rfl hp, infixTokens_cons_none rfl,
    infixTokens_map_operator rfl hs]
  rfl

theorem Single.infixTokens_append_cons {row : List Item} (h : Single row) {operator : Token}
    (kind : operator.kind.isInfix = true) (rest : List Item) :
    Item.infixTokens (row ++ .operator operator :: rest) = operator :: Item.infixTokens rest := by
  rw [infixTokens_append, h.infixTokens,
    infixTokens_cons_some (infixToken?_eq_some.mpr ⟨rfl, kind⟩), List.nil_append]

theorem Single.ne_nil {row : List Item} (h : Single row) : row ≠ [] := by
  obtain ⟨prefixes, operand, suffixes, rfl, -⟩ := h
  simp

theorem Alternates.ne_nil {row : List Item} (h : Alternates row) : row ≠ [] := by
  cases h with
  | single h => exact h.ne_nil
  | cons => simp

theorem Alternates.single_of_infixTokens {row : List Item} (h : Alternates row)
    (hn : Item.infixTokens row = []) : Single row := by
  cases h with
  | single h => exact h
  | cons kind single =>
      rw [single.infixTokens_append_cons kind] at hn
      cases hn

theorem Alternates.append {row rest : List Item} {operator : Token}
    (kind : operator.kind.isInfix = true) (h : Alternates row) (h' : Alternates rest) :
    Alternates (row ++ .operator operator :: rest) := by
  induction h with
  | single h => exact Alternates.cons kind h h'
  | cons kind' h _ ih =>
      rw [List.append_assoc]
      exact Alternates.cons kind' h ih

theorem Alternates.piece {row piece : List Item} (h : Alternates row) {symbol : String}
    (hp : piece ∈ splitAtSymbol symbol row) : Alternates piece := by
  induction h generalizing piece with
  | @single row h =>
      have hs : ∀ item ∈ row, item.separates symbol = false :=
        not_separates_of_infixTokens (by simp [h.infixTokens])
      rw [splitAtSymbol_of_not_separates hs, List.mem_singleton] at hp
      rw [hp]
      exact Alternates.single h
  | @cons row rest operator kind h h' ih =>
      have hs : ∀ item ∈ row, item.separates symbol = false :=
        not_separates_of_infixTokens (by simp [h.infixTokens])
      by_cases ho : (Item.operator operator).separates symbol = true
      · rw [splitAtSymbol_append_cons ho, splitAtSymbol_of_not_separates hs, List.mem_append,
          List.mem_singleton] at hp
        rcases hp with rfl | hp
        · exact Alternates.single h
        · exact ih hp
      · -- The first piece goes on with what begins the rest.
        rw [Bool.not_eq_true] at ho
        obtain ⟨first, pieces, hf, hq⟩ := splitAtSymbol_cons ho rest
        rw [splitAtSymbol_append hs hq, List.mem_cons] at hp
        rcases hp with rfl | hp
        · exact Alternates.cons kind h (ih (hf ▸ List.mem_cons_self))
        · exact ih (hf ▸ List.mem_cons_of_mem _ hp)

theorem alternates_of_between {rows : List (List Item)} {row : List Item} {symbol : String}
    (h : Between (fun token => token.kind.isInfix = true ∧ token.text = symbol) rows row)
    (hr : ∀ r ∈ rows, Alternates r) : Alternates row := by
  induction h with
  | last row => exact hr row List.mem_cons_self
  | cons sort _ ih =>
      rw [List.forall_mem_cons] at hr
      exact hr.1.append sort.1 (ih hr.2)

namespace Grammar

variable {g : Grammar}

/-- Why no tree is built from a row. -/
inductive Refuses (g : Grammar) (row : List Item) : ParseError → Prop
  /-- The tree would be too deep. -/
  | depth : Refuses g row (.nestingTooDeep g.maxDepth)
  /-- One of the infix operators has no place in the order of operations. -/
  | rank {token : Token} : token ∈ infixTokens row → g.precedence token.text = none →
      Refuses g row (.noPrecedence token.text)
  /-- Operands and operators do not alternate. -/
  | shape {e : ParseError} : ¬ Alternates row → ¬ e.IsLimit → Refuses g row e

/-- A row that has a tree is operands and infix operators in turn. -/
theorem alternates_of_buildExpression {row : List Item} {m : Measured}
    (h : g.buildExpression row = .ok m) : Alternates row := by
  refine buildExpression_induction (P := fun row _ => Alternates row) ?_ ?_ h
  · intro row m _ h
    obtain ⟨prefixes, operand, suffixes, _, hrow, hp, hs, -, -⟩ := buildOperand_eq_ok.mp h
    exact Alternates.single ⟨prefixes, operand, suffixes, hrow, hp, hs⟩
  · intro row operator operands m _ hp _
    refine alternates_of_between (between_splitAtSymbol operator.text row) fun piece hpiece => ?_
    obtain ⟨_, _, h⟩ := exists_mem_of_forall₂ hp.flip hpiece
    exact h.2.2

/-! ### Causes of failure -/

theorem takeOperand_eq_error {prefixes : List Token} {row : List Item} {e : ParseError}
    (h : takeOperand prefixes row = .error e) : ¬ e.IsLimit := by
  induction row generalizing prefixes with
  | nil =>
      unfold takeOperand at h
      split at h <;> cases h <;> exact id
  | cons item row ih =>
      cases item with
      | operand m => cases h
      | operator token =>
          unfold takeOperand at h
          split at h
          · exact ih h
          · cases h
            exact id
          · cases h
            exact id

theorem takeSuffixes_eq_error {row : List Item} {e : ParseError}
    (h : takeSuffixes row = .error e) : ¬ e.IsLimit := by
  induction row with
  | nil => cases h
  | cons item row ih =>
      cases item with
      | operand m =>
          cases h
          exact id
      | operator token =>
          unfold takeSuffixes at h
          split at h
          · rcases bind_eq_error.mp h with h | ⟨_, -, h⟩
            · exact ih h
            · cases h
          · cases h
            exact id

/-- One operand with its unary operators is refused only for its depth. -/
theorem buildOperand_eq_error {row : List Item} {e : ParseError}
    (h : g.buildOperand row = .error e) :
    e = .nestingTooDeep g.maxDepth ∨ ¬ Single row ∧ ¬ e.IsLimit := by
  by_cases hs : Single row
  · obtain ⟨prefixes, operand, suffixes, rfl, hp, hs⟩ := hs
    rw [buildOperand_append operand hp hs] at h
    rcases bind_eq_error.mp h with h | ⟨_, -, h⟩
    · exact Or.inl (applyUnary_eq_error h)
    · exact Or.inl (applyUnary_eq_error h)
  · unfold buildOperand at h
    rcases bind_eq_error.mp h with h | ⟨⟨taken, operand, rest⟩, -, h⟩
    · exact Or.inr ⟨hs, takeOperand_eq_error h⟩
    · rcases bind_eq_error.mp h with h | ⟨suffixes, -, h⟩
      · exact Or.inr ⟨hs, takeSuffixes_eq_error h⟩
      · rcases bind_eq_error.mp h with h | ⟨_, -, h⟩
        · exact Or.inl (applyUnary_eq_error h)
        · exact Or.inl (applyUnary_eq_error h)

/-- There is no other cause of failure. -/
theorem buildExpression_refuses {row : List Item} {e : ParseError}
    (h : g.buildExpression row = .error e) : g.Refuses row e := by
  induction row using row_induction (g := g) with
  | row row ih =>
      cases hl : g.loosest row with
      | error e' =>
          rw [buildExpression_of_loosest_error hl, Except.error.injEq] at h
          subst h
          obtain ⟨token, ht, hn, rfl⟩ := loosest_eq_error hl
          exact Refuses.rank ht hn
      | ok found =>
          cases found with
          | none =>
              rw [buildExpression_of_loosest_none hl] at h
              rcases buildOperand_eq_error h with rfl | ⟨hs, he⟩
              · exact Refuses.depth
              · refine Refuses.shape (fun ha => hs ?_) he
                exact ha.single_of_infixTokens (loosest_eq_none.mp hl)
          | some operator =>
              rw [buildExpression_of_loosest_some hl] at h
              rcases bind_eq_error.mp h with h | ⟨operands, hp, h⟩
              · obtain ⟨piece, hpiece, h⟩ := mapM_eq_error h
                unfold buildPiece at h
                split at h
                · next hnil =>
                  cases h
                  refine Refuses.shape (fun ha => ?_) id
                  exact (ha.piece hpiece).ne_nil (List.isEmpty_iff.mp hnil)
                · cases ih operator hl piece hpiece h with
                  | depth => exact Refuses.depth
                  | rank ht hn => exact Refuses.rank (mem_infixTokens_piece hpiece ht).1 hn
                  | shape hs he => exact Refuses.shape (fun ha => hs (ha.piece hpiece)) he
              · rw [combine_eq_error (ne_nil_of_mapM_splitAtSymbol hp) h]
                exact Refuses.depth

theorem isLimit_of_alternates {row : List Item} {e : ParseError} (ha : Alternates row)
    (h : g.buildExpression row = .error e) : e.IsLimit := by
  cases buildExpression_refuses h with
  | depth => trivial
  | rank => trivial
  | shape hs => exact absurd ha hs

end Grammar

end OperatorGrammar
