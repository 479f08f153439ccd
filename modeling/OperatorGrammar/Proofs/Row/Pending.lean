import OperatorGrammar.Proofs.Row.Shape

/-! # Rows that lack an operand

A row that has just begun, or that ends with a prefix or an infix operator, waits for an operand
(`Pending`).  Rows that are read from left to right go back and forth between this shape and that
of a finished row: an operand finishes a pending row (`Pending.operand`), and an infix operator
makes a finished row wait again (`Alternates.between`).  No tree is built from a pending row, and
unless a limit is exceeded first, what is reported is the operand that is missing
(`Pending.buildExpression`). -/

namespace OperatorGrammar

open Item

/-- Whether an error says that an operand is missing, after an operator or altogether. -/
def ParseError.IsGap : ParseError → Prop
  | .emptyExpression | .missingOperand _ => True
  | _ => False

/-- Operands and infix operators in turn, and then prefixes or nothing instead of an operand. -/
inductive Pending : List Item → Prop
  | prefixes {tokens : List Token} (kind : ∀ t ∈ tokens, t.kind = .preUnary) :
      Pending (tokens.map .operator)
  | cons {row rest : List Item} {operator : Token} (kind : operator.kind.isInfix = true) :
      Single row → Pending rest → Pending (row ++ .operator operator :: rest)

variable {row rest : List Item} {token : Token}

theorem pending_nil : Pending [] := by
  have none : ∀ t ∈ ([] : List Token), t.kind = .preUnary := by simp
  exact Pending.prefixes none

/-! ### One more item -/

theorem Pending.operand (h : Pending row) (m : Measured) : Alternates (row ++ [.operand m]) := by
  induction h with
  | @prefixes tokens kind =>
      exact Alternates.single ⟨tokens, m, [], rfl, kind, by simp⟩
  | cons kind single _ ih =>
      rw [List.append_assoc]
      exact Alternates.cons kind single ih

theorem Pending.preUnary (h : Pending row) (hk : token.kind = .preUnary) :
    Pending (row ++ [.operator token]) := by
  induction h with
  | @prefixes tokens kind =>
      have hmap : tokens.map Item.operator ++ [.operator token] =
          (tokens ++ [token]).map .operator := by simp
      rw [hmap]
      exact Pending.prefixes (List.forall_mem_append.mpr ⟨kind, List.forall_mem_singleton.mpr hk⟩)
  | cons kind single _ ih =>
      rw [List.append_assoc]
      exact Pending.cons kind single ih

theorem Single.postUnary (h : Single row) (hk : token.kind = .postUnary) :
    Single (row ++ [.operator token]) := by
  obtain ⟨prefixes, operand, suffixes, rfl, hp, hs⟩ := h
  exact ⟨prefixes, operand, suffixes ++ [token], by simp, hp,
    List.forall_mem_append.mpr ⟨hs, List.forall_mem_singleton.mpr hk⟩⟩

theorem Alternates.postUnary (h : Alternates row) (hk : token.kind = .postUnary) :
    Alternates (row ++ [.operator token]) := by
  induction h with
  | single single => exact Alternates.single (single.postUnary hk)
  | cons kind single _ ih =>
      rw [List.append_assoc]
      exact Alternates.cons kind single ih

theorem Alternates.append_pending (h : Alternates row) (hk : token.kind.isInfix = true)
    (h' : Pending rest) : Pending (row ++ .operator token :: rest) := by
  induction h with
  | single single => exact Pending.cons hk single h'
  | cons kind single _ ih =>
      rw [List.append_assoc]
      exact Pending.cons kind single ih

theorem Alternates.between (h : Alternates row) (hk : token.kind.isInfix = true) :
    Pending (row ++ [.operator token]) :=
  h.append_pending hk pending_nil

/-! ### No tree -/

/-- The number of finished operands of a row. -/
def operandCount (row : List Item) : Nat :=
  row.countP fun item => item matches .operand _

theorem operandCount_append (row rest : List Item) :
    operandCount (row ++ rest) = operandCount row + operandCount rest :=
  List.countP_append

theorem operandCount_map_operator (tokens : List Token) :
    operandCount (tokens.map .operator) = 0 := by
  simp [operandCount]

theorem Single.operandCount (h : Single row) : operandCount row = 1 := by
  obtain ⟨prefixes, operand, suffixes, rfl, -⟩ := h
  rw [operandCount_append, operandCount_map_operator]
  simp [OperatorGrammar.operandCount]

theorem Single.operandCount_append_cons (h : Single row) (operator : Token) (rest : List Item) :
    OperatorGrammar.operandCount (row ++ .operator operator :: rest) =
      OperatorGrammar.operandCount rest + 1 := by
  have hrest : OperatorGrammar.operandCount (.operator operator :: rest) =
      OperatorGrammar.operandCount rest := rfl
  rw [operandCount_append, hrest, h.operandCount, Nat.add_comm]

theorem Alternates.operandCount (h : Alternates row) :
    operandCount row = (infixTokens row).length + 1 := by
  induction h with
  | single single => rw [single.operandCount, single.infixTokens, List.length_nil]
  | cons kind single _ ih =>
      rw [single.operandCount_append_cons, single.infixTokens_append_cons kind, ih,
        List.length_cons]

theorem Pending.operandCount (h : Pending row) :
    operandCount row = (infixTokens row).length := by
  induction h with
  | prefixes kind =>
      rw [operandCount_map_operator, infixTokens_map_operator rfl kind, List.length_nil]
  | cons kind single _ ih =>
      rw [single.operandCount_append_cons, single.infixTokens_append_cons kind, ih,
        List.length_cons]

/-- No row is finished and pending at once: a finished one has one operand more. -/
theorem Pending.not_alternates (h : Pending row) : ¬ Alternates row := by
  intro h'
  have hp := h.operandCount
  have ha := h'.operandCount
  omega

theorem Pending.piece {piece : List Item} {symbol : String} (h : Pending row)
    (hp : piece ∈ splitAtSymbol symbol row) : Alternates piece ∨ Pending piece := by
  induction h generalizing piece with
  | @prefixes tokens kind =>
      have hn : infixTokens (tokens.map Item.operator) = [] := infixTokens_map_operator rfl kind
      rw [splitAtSymbol_of_not_separates (not_separates_of_infixTokens (by simp [hn])),
        List.mem_singleton] at hp
      rw [hp]
      exact Or.inr (Pending.prefixes kind)
  | @cons row rest operator kind single _ ih =>
      have hs : ∀ item ∈ row, item.separates symbol = false :=
        not_separates_of_infixTokens (by simp [single.infixTokens])
      by_cases ho : (Item.operator operator).separates symbol = true
      · rw [splitAtSymbol_append_cons ho, splitAtSymbol_of_not_separates hs, List.mem_append,
          List.mem_singleton] at hp
        rcases hp with rfl | hp
        · exact Or.inl (Alternates.single single)
        · exact ih hp
      · -- The first piece goes on with what begins the rest.
        rw [Bool.not_eq_true] at ho
        obtain ⟨first, pieces, hf, hq⟩ := splitAtSymbol_cons ho rest
        rw [splitAtSymbol_append hs hq, List.mem_cons] at hp
        rcases hp with rfl | hp
        · exact (ih (hf ▸ List.mem_cons_self)).imp (Alternates.cons kind single)
            (Pending.cons kind single)
        · exact ih (hf ▸ List.mem_cons_of_mem _ hp)

theorem Pending.eq_prefixes (h : Pending row) (hn : infixTokens row = []) :
    ∃ tokens : List Token, row = tokens.map .operator ∧ ∀ t ∈ tokens, t.kind = .preUnary := by
  cases h with
  | @prefixes tokens kind => exact ⟨tokens, rfl, kind⟩
  | cons kind single _ =>
      rw [single.infixTokens_append_cons kind] at hn
      cases hn

namespace Grammar

variable {g : Grammar} {e : ParseError}

theorem takeOperand_map_operator {tokens : List Token} (hk : ∀ t ∈ tokens, t.kind = .preUnary)
    {taken : List Token} (h : takeOperand taken (tokens.map .operator) = .error e) : e.IsGap := by
  induction tokens generalizing taken with
  | nil =>
      simp only [List.map_nil, takeOperand] at h
      split at h <;> cases h <;> trivial
  | cons token tokens ih =>
      rw [List.forall_mem_cons] at hk
      simp only [List.map_cons, takeOperand, hk.1] at h
      exact ih hk.2 h

theorem buildExpression_eq_error_of_pending (hp : Pending row)
    (h : g.buildExpression row = .error e) : e.IsLimit ∨ e.IsGap := by
  induction row using row_induction (g := g) with
  | row row ih =>
      cases hl : g.loosest row with
      | error e' =>
          rw [buildExpression_of_loosest_error hl, Except.error.injEq] at h
          subst h
          obtain ⟨_, _, _, rfl⟩ := loosest_eq_error hl
          exact Or.inl trivial
      | ok found =>
          cases found with
          | none =>
              rw [buildExpression_of_loosest_none hl] at h
              obtain ⟨tokens, rfl, hk⟩ := hp.eq_prefixes (loosest_eq_none.mp hl)
              rcases bind_eq_error.mp h with h | ⟨⟨taken, operand, rest⟩, h, -⟩
              · exact Or.inr (takeOperand_map_operator hk h)
              · obtain ⟨_, -, h, -⟩ := takeOperand_eq_ok.mp h
                have hmem : Item.operand operand ∈ tokens.map Item.operator := h ▸ by simp
                simp at hmem
          | some operator =>
              rw [buildExpression_of_loosest_some hl] at h
              rcases bind_eq_error.mp h with h | ⟨operands, hp', h⟩
              · obtain ⟨piece, hpiece, h⟩ := mapM_eq_error h
                unfold buildPiece at h
                split at h
                · cases h
                  exact Or.inr trivial
                · rcases hp.piece hpiece with ha | hp
                  · exact Or.inl (isLimit_of_alternates ha h)
                  · exact ih operator hl piece hpiece hp h
              · rw [combine_eq_error (ne_nil_of_mapM_splitAtSymbol hp') h]
                exact Or.inl trivial

end Grammar

/-- What is missing is reported, unless a limit is exceeded. -/
theorem Pending.buildExpression (h : Pending row) (g : Grammar) :
    ∃ e, g.buildExpression row = .error e ∧ (e.IsLimit ∨ e.IsGap) := by
  cases hb : g.buildExpression row with
  | ok m => exact absurd (Grammar.alternates_of_buildExpression hb) h.not_alternates
  | error e => exact ⟨e, rfl, Grammar.buildExpression_eq_error_of_pending h hb⟩

end OperatorGrammar
