import OperatorGrammar.Proofs.Row.Build
import OperatorGrammar.Proofs.TokenTree.InOrder

/-! # The rows that a tree is built from

Which rows give a tree that is known: `Grammar.Spreads g t row` says that the tree `t` is built
from a row (`Spreads.built`), with what has to be known of the row to put it into a larger one.
For an infix operator at the root, that is how the row comes apart at its symbol
(`Grammar.Gathers`): where the operator groups, an operand may bring uses of the same symbol with
it, and these are pieces of the larger row too.  There is one lemma for each kind of node:
`spreads_operand`, `Spreads.preUnary`, `Spreads.postUnary`, and `spreads_joined` for all infix
operators. -/

namespace OperatorGrammar

open Item

def Measured.of (t : TokenTree) : Measured := ⟨t, t.height⟩

theorem Measured.map_tree_of (ts : List TokenTree) : (ts.map of).map tree = ts := by
  rw [List.map_map]
  exact List.map_id ts

theorem Measured.deepest_of (ts : List TokenTree) :
    deepest (ts.map of) = TokenTree.heightOfAll ts := by
  induction ts with
  | nil => rfl
  | cons t ts ih =>
      rw [TokenTree.heightOfAll, ← ih]
      rfl

theorem Measured.deepest_map_const {ts : List TokenTree} (hne : ts ≠ []) (depth : Nat) :
    deepest (ts.map fun t => ⟨t, depth⟩) = depth := by
  induction ts with
  | nil => exact absurd rfl hne
  | cons t ts ih =>
      cases ts with
      | nil => simp [deepest]
      | cons u us =>
          have := ih (List.cons_ne_nil u us)
          simp only [deepest, List.map_cons, List.foldr_cons] at this ⊢
          omega

namespace Grammar

variable {g : Grammar}

theorem wrap_of {name : String} {kind : TokenKind} {ts : List TokenTree}
    (h : (TokenTree.node name kind ts).height ≤ g.maxDepth.toNat) :
    g.wrap name kind (ts.map .of) = .ok (.of (.node name kind ts)) := by
  rw [TokenTree.height] at h
  rw [wrap_eq_ok, Measured.deepest_of, Measured.map_tree_of, Measured.of, TokenTree.height]
  exact ⟨h, rfl⟩

/-! ### Rows around the uses of a symbol -/

/-- A token is a use of an infix symbol in its own role. -/
def Uses (g : Grammar) (symbol : String) (token : Token) : Prop :=
  token.text = symbol ∧ token.kind = g.infixKind symbol

/-- The infix operators of a row are uses of a symbol or bind more tightly. -/
def NoLooser (g : Grammar) (symbol : String) (row : List Item) : Prop :=
  ∀ token ∈ infixTokens row, g.Uses symbol token ∨ g.Looser symbol token.text

/-- The infix operators of a row bind more tightly than a symbol. -/
def Tighter (g : Grammar) (symbol : String) (row : List Item) : Prop :=
  ∀ token ∈ infixTokens row, g.Looser symbol token.text

/-- The pieces of a row between the uses of a symbol are operands that it joins to a tree. -/
structure Gathers (g : Grammar) (symbol : String) (row : List Item) (t : TokenTree) : Prop where
  noLooser : g.NoLooser symbol row
  pieces : ∃ operands, List.Forall₂
    (fun piece operand => piece ≠ [] ∧ g.buildExpression piece = .ok operand)
    (splitAtSymbol symbol row) operands ∧ Joins g symbol (g.infixKind symbol) operands (.of t)

/-- A tree is built from a row. -/
inductive Spreads (g : Grammar) : TokenTree → List Item → Prop
  | operand {t : TokenTree} {row : List Item} (kind : t.kind.isInfix = false)
      (plain : infixTokens row = []) (built : g.buildOperand row = .ok (.of t))
      (begins : t.kind ≠ .preUnary → ∃ m rest, row = .operand m :: rest) : Spreads g t row
  | operator {symbol : String} {children : List TokenTree} {row : List Item}
      (rank : (g.precedence symbol).isSome = true)
      (present : ∃ token ∈ infixTokens row, token.text = symbol)
      (gathers : g.Gathers symbol row (.node symbol (g.infixKind symbol) children)) :
      Spreads g (.node symbol (g.infixKind symbol) children) row

variable {symbol : String} {row : List Item} {t : TokenTree}

/-- A symbol that occurs, and before which no operator comes, is the loosest one. -/
theorem loosest_of_noLooser (rank : (g.precedence symbol).isSome = true)
    (present : ∃ token ∈ infixTokens row, token.text = symbol) (h : g.NoLooser symbol row) :
    ∃ operator, g.loosest row = .ok (some operator) ∧ operator.text = symbol ∧
      operator.kind = g.infixKind symbol := by
  obtain ⟨token, ht, rfl⟩ := present
  cases hl : g.loosest row with
  | error e =>
      obtain ⟨token', ht', hn, -⟩ := loosest_eq_error hl
      rcases h token' ht' with ⟨he, -⟩ | hlt
      · rw [← he, hn] at rank
        cases rank
      · obtain ⟨_, _, -, hp, -⟩ := looser_iff.mp hlt
        rw [hn] at hp
        cases hp
  | ok found =>
      cases found with
      | none =>
          rw [loosest_eq_none.mp hl] at ht
          cases ht
      | some operator =>
          obtain ⟨hmem, hle⟩ := loosest_eq_some hl
          rcases h operator hmem with he | hlt
          · exact ⟨operator, rfl, he⟩
          · -- It cannot bind more tightly than the symbol, since the symbol occurs.
            rcases hle token ht with he | hlt'
            · exact absurd he hlt.ne
            · exact absurd rfl (hlt.trans hlt').ne

theorem Gathers.built (h : g.Gathers symbol row t) (rank : (g.precedence symbol).isSome = true)
    (present : ∃ token ∈ infixTokens row, token.text = symbol) :
    g.buildExpression row = .ok (.of t) := by
  obtain ⟨operator, hl, rfl, hk⟩ := loosest_of_noLooser rank present h.noLooser
  obtain ⟨operands, hp, hj⟩ := h.pieces
  exact buildExpression_eq_ok.mpr (Or.inr ⟨operator, operands, hl, hp, hk ▸ hj⟩)

theorem Spreads.built (h : g.Spreads t row) : g.buildExpression row = .ok (.of t) := by
  cases h with
  | operand _ plain built _ => exact buildExpression_eq_ok.mpr (Or.inl ⟨plain, built⟩)
  | operator rank present gathers => exact gathers.built rank present

theorem ne_nil_of_buildExpression {m : Measured} (h : g.buildExpression row = .ok m) :
    row ≠ [] := by
  rintro rfl
  rcases buildExpression_eq_ok.mp h with ⟨-, h⟩ | ⟨_, _, hl, -⟩
  · obtain ⟨prefixes, _, _, _, h, -⟩ := buildOperand_eq_ok.mp h
    simp at h
  · obtain ⟨_, h, -⟩ := loosest_mem hl
    cases h

theorem Spreads.ne_nil (h : g.Spreads t row) : row ≠ [] := ne_nil_of_buildExpression h.built

/-! ### Operands of an infix operator -/

theorem Tighter.noLooser (h : g.Tighter symbol row) : g.NoLooser symbol row :=
  fun token ht => Or.inr (h token ht)

theorem Tighter.not_separates (h : g.Tighter symbol row) :
    ∀ item ∈ row, item.separates symbol = false :=
  not_separates_of_infixTokens fun token ht => (h token ht).ne.symm

theorem Tighter.splitAtSymbol (h : g.Tighter symbol row) : splitAtSymbol symbol row = [row] :=
  splitAtSymbol_of_not_separates h.not_separates

theorem Spreads.tighter (h : g.Spreads t row) (admits : g.Admits symbol false t) :
    g.Tighter symbol row := by
  intro token ht
  cases h with
  | operand _ plain _ _ =>
      rw [plain] at ht
      cases ht
  | @operator root _ _ _ _ gathers =>
      rcases admits (g.isInfix_infixKind root) with hlt | ⟨h, -⟩
      · rcases gathers.noLooser token ht with ⟨he, -⟩ | hlt'
        · rw [he]
          exact hlt
        · exact hlt.trans hlt'
      · cases h

theorem Spreads.gathers_of_tighter (h : g.Spreads t row) (hm : ¬ g.isMultary symbol = true)
    (tighter : g.Tighter symbol row) : g.Gathers symbol row t := by
  refine ⟨tighter.noLooser, [.of t], ?_, Joins.one hm _⟩
  rw [tighter.splitAtSymbol]
  exact List.Forall₂.cons ⟨h.ne_nil, h.built⟩ List.Forall₂.nil

/-- On the side on which an operator groups, an operand is one piece, or the same operator has
gathered it from several. -/
theorem Spreads.gathers (h : g.Spreads t row) (hm : ¬ g.isMultary symbol = true)
    (admits : g.Admits symbol true t) : g.Gathers symbol row t := by
  by_cases hs : t.kind.isInfix = true ∧ t.name = symbol
  · obtain ⟨hk, rfl⟩ := hs
    cases h with
    | operand kind =>
        rw [hk] at kind
        cases kind
    | operator _ _ gathers => exact gathers
  · refine h.gathers_of_tighter hm (h.tighter fun hk => ?_)
    exact Or.inl ((admits hk).resolve_right fun he => hs ⟨hk, he.2⟩)

/-! ### Infix operators -/

section uses

variable {operator : Token}

theorem Uses.isInfix (h : g.Uses symbol operator) :
    operator.kind.isInfix = true ∧ operator.text = symbol :=
  ⟨h.2 ▸ g.isInfix_infixKind symbol, h.1⟩

theorem Uses.infixToken? (h : g.Uses symbol operator) :
    (Item.operator operator).infixToken? = some operator :=
  infixToken?_eq_some.mpr ⟨rfl, h.isInfix.1⟩

theorem Uses.separates (h : g.Uses symbol operator) :
    (Item.operator operator).separates symbol = true :=
  h.1 ▸ separates_of_infixToken? h.infixToken?

theorem NoLooser.append_cons {row rest : List Item} (uses : g.Uses symbol operator)
    (h : g.NoLooser symbol row) (h' : g.NoLooser symbol rest) :
    g.NoLooser symbol (row ++ .operator operator :: rest) := by
  intro token ht
  rw [infixTokens_append, infixTokens_cons_some uses.infixToken?, List.mem_append,
    List.mem_cons] at ht
  rcases ht with ht | rfl | ht
  · exact h token ht
  · exact Or.inl uses
  · exact h' token ht

end uses

section between

variable {rows : List (List Item)}

theorem noLooser_of_between (h : Between (g.Uses symbol) rows row)
    (hr : ∀ r ∈ rows, g.NoLooser symbol r) : g.NoLooser symbol row := by
  induction h with
  | last row => exact hr row List.mem_cons_self
  | cons uses _ ih =>
      rw [List.forall_mem_cons] at hr
      exact NoLooser.append_cons uses hr.1 (ih hr.2)

theorem present_of_between (h : Between (g.Uses symbol) rows row) (two : 2 ≤ rows.length) :
    ∃ token ∈ infixTokens row, token.text = symbol := by
  cases h with
  | last => simp at two
  | @cons _ _ _ operator uses =>
      refine ⟨operator, ?_, uses.1⟩
      rw [infixTokens_append, infixTokens_cons_some uses.infixToken?]
      exact List.mem_append_right _ List.mem_cons_self

end between

theorem gathers_all {children : List TokenTree} {rows : List (List Item)}
    (hm : g.isMultary symbol = true) (hc : List.Forall₂ (g.Spreads) children rows)
    (admits : ∀ t ∈ children, g.Admits symbol false t) (hb : Between (g.Uses symbol) rows row)
    (shallow : (TokenTree.node symbol (g.infixKind symbol) children).height ≤ g.maxDepth.toNat) :
    g.Gathers symbol row (.node symbol (g.infixKind symbol) children) := by
  have tighter : ∀ r ∈ rows, g.Tighter symbol r := by
    intro r hr
    obtain ⟨t, ht, hs⟩ := exists_mem_of_forall₂ hc hr
    exact hs.tighter (admits t ht)
  refine ⟨noLooser_of_between hb fun r hr => (tighter r hr).noLooser, children.map .of, ?_,
    Joins.all hm (wrap_of shallow)⟩
  rw [splitAtSymbol_of_between (fun _ => Uses.isInfix) hb fun r hr => (tighter r hr).not_separates,
    List.forall₂_map_right_iff]
  exact List.Forall₂.flip (hc.imp fun _ _ hs => ⟨hs.ne_nil, hs.built⟩)

section binary

variable {left right : TokenTree} {before after : List Item} {operator : Token}

theorem Gathers.fromLeft (hm : ¬ g.isMultary symbol = true)
    (hr : ¬ g.isRightAssociative symbol = true) (uses : g.Uses symbol operator)
    (hl : g.Gathers symbol before left)
    (hs : g.Spreads right after) (tighter : g.Tighter symbol after)
    (shallow : (TokenTree.node symbol (g.infixKind symbol) [left, right]).height ≤
      g.maxDepth.toNat) :
    g.Gathers symbol (before ++ .operator operator :: after)
      (.node symbol (g.infixKind symbol) [left, right]) := by
  obtain ⟨operands, hp, hj⟩ := hl.pieces
  refine ⟨NoLooser.append_cons uses hl.noLooser tighter.noLooser, operands ++ [.of right], ?_, ?_⟩
  · rw [splitAtSymbol_append_cons uses.separates, tighter.splitAtSymbol]
    exact List.rel_append hp (List.Forall₂.cons ⟨hs.ne_nil, hs.built⟩ List.Forall₂.nil)
  · exact Joins.fromLeft hm hr hj (wrap_of shallow)

theorem Gathers.fromRight (hm : ¬ g.isMultary symbol = true)
    (hr : g.isRightAssociative symbol = true) (uses : g.Uses symbol operator)
    (hs : g.Spreads left before)
    (tighter : g.Tighter symbol before) (hl : g.Gathers symbol after right)
    (shallow : (TokenTree.node symbol (g.infixKind symbol) [left, right]).height ≤
      g.maxDepth.toNat) :
    g.Gathers symbol (before ++ .operator operator :: after)
      (.node symbol (g.infixKind symbol) [left, right]) := by
  obtain ⟨operands, hp, hj⟩ := hl.pieces
  refine ⟨NoLooser.append_cons uses tighter.noLooser hl.noLooser, .of left :: operands, ?_, ?_⟩
  · rw [splitAtSymbol_append_cons uses.separates, tighter.splitAtSymbol]
    exact List.Forall₂.cons ⟨hs.ne_nil, hs.built⟩ hp
  · exact Joins.fromRight hm hr hj (wrap_of shallow)

end binary

/-- Rows of ordered operands with an infix operator between them are a row of the tree over them. -/
theorem spreads_joined {children : List TokenTree} {rows : List (List Item)}
    (ordered : g.OperandsOrdered symbol children) (rank : (g.precedence symbol).isSome = true)
    (shallow : (TokenTree.node symbol (g.infixKind symbol) children).height ≤ g.maxDepth.toNat)
    (hc : List.Forall₂ (g.Spreads) children rows) (hb : Between (g.Uses symbol) rows row) :
    g.Spreads (.node symbol (g.infixKind symbol) children) row := by
  have two : 2 ≤ rows.length := hc.length_eq ▸ ordered.two_le_length
  refine Spreads.operator rank (present_of_between hb two) ?_
  by_cases hm : g.isMultary symbol = true
  · exact gathers_all hm hc ((operandsOrdered_of_isMultary hm).mp ordered).2 hb shallow
  · obtain ⟨left, right, rfl, hl, hr⟩ := (operandsOrdered_of_not_isMultary hm).mp ordered
    obtain ⟨before, rest, hsl, hc', rfl⟩ := List.forall₂_cons_left_iff.mp hc
    obtain ⟨after, none, hsr, hc'', rfl⟩ := List.forall₂_cons_left_iff.mp hc'
    obtain rfl := List.forall₂_nil_left_iff.mp hc''
    obtain ⟨operator, uses, rfl⟩ : ∃ operator : Token, g.Uses symbol operator ∧
        row = before ++ .operator operator :: after := by
      cases hb with
      | cons uses hb =>
          cases hb with
          | last => exact ⟨_, uses, rfl⟩
          | cons _ hb => cases hb
    by_cases hg : g.isRightAssociative symbol = true
    · rw [hg] at hl hr
      exact Gathers.fromRight hm hg uses hsl (hsl.tighter hl) (hsr.gathers hm hr) shallow
    · rw [Bool.not_eq_true] at hg
      rw [hg] at hl hr
      exact Gathers.fromLeft hm (by simp [hg]) uses (hsl.gathers hm hl) hsr (hsr.tighter hr)
        shallow

/-! ### One operand with its unary operators -/

theorem spreads_operand (kind : t.kind.isInfix = false) : g.Spreads t [.operand (.of t)] := by
  refine Spreads.operand kind rfl ?_ fun _ => ⟨_, _, rfl⟩
  exact buildOperand_eq_ok.mpr ⟨[], .of t, [], .of t, rfl, by simp, by simp, rfl, rfl⟩

theorem Spreads.of_not_isInfix (h : g.Spreads t row) (kind : t.kind.isInfix = false) :
    infixTokens row = [] ∧ g.buildOperand row = .ok (.of t) ∧
      (t.kind ≠ .preUnary → ∃ m rest, row = .operand m :: rest) := by
  cases h with
  | operand _ plain built begins => exact ⟨plain, built, begins⟩
  | @operator root =>
      have : (g.infixKind root).isInfix = false := kind
      rw [g.isInfix_infixKind root] at this
      cases this

section unary

variable {token : Token}

theorem Spreads.preUnary (h : g.Spreads t row) (kind : t.kind.isInfix = false)
    (hk : token.kind = .preUnary)
    (shallow : (TokenTree.node token.text .preUnary [t]).height ≤ g.maxDepth.toNat) :
    g.Spreads (.node token.text .preUnary [t]) (.operator token :: row) := by
  obtain ⟨plain, built, -⟩ := h.of_not_isInfix kind
  refine Spreads.operand rfl ?_ ?_ fun h => absurd rfl h
  · rw [infixTokens_cons_none (by simp [infixToken?, hk, TokenKind.isInfix]), plain]
  · obtain ⟨prefixes, operand, suffixes, inner, rfl, hp, hs, hi, hm⟩ := buildOperand_eq_ok.mp built
    refine buildOperand_eq_ok.mpr ⟨token :: prefixes, operand, suffixes, inner, rfl,
      List.forall_mem_cons.mpr ⟨hk, hp⟩, hs, hi, ?_⟩
    rw [List.reverse_cons]
    exact applyUnary_concat.mpr ⟨.of t, hm, wrap_of shallow⟩

theorem Spreads.postUnary (h : g.Spreads t row) (kind : t.kind.isInfix = false)
    (hne : t.kind ≠ .preUnary) (hk : token.kind = .postUnary)
    (shallow : (TokenTree.node token.text .postUnary [t]).height ≤ g.maxDepth.toNat) :
    g.Spreads (.node token.text .postUnary [t]) (row ++ [.operator token]) := by
  obtain ⟨plain, built, begins⟩ := h.of_not_isInfix kind
  obtain ⟨m, rest, rfl⟩ := begins hne
  refine Spreads.operand rfl ?_ ?_ fun _ => ⟨m, rest ++ [.operator token], rfl⟩
  · rw [infixTokens_append, plain,
      infixTokens_cons_none (by simp [infixToken?, hk, TokenKind.isInfix])]
    rfl
  · obtain ⟨prefixes, operand, suffixes, inner, hrow, -, hs, hi, hm⟩ :=
      buildOperand_eq_ok.mp built
    cases prefixes with
    | cons p ps => simp at hrow
    | nil =>
        rw [List.reverse_nil, applyUnary_nil, Except.ok.injEq] at hm
        subst hm
        refine buildOperand_eq_ok.mpr ⟨[], operand, suffixes ++ [token],
          .of (.node token.text .postUnary [t]), ?_, by simp, ?_, ?_, rfl⟩
        · rw [hrow]
          simp
        · intro s hs'
          rcases List.mem_append.mp hs' with hs' | hs'
          · exact hs s hs'
          · rw [List.mem_singleton.mp hs']
            exact hk
        · exact applyUnary_concat.mpr ⟨.of t, hi, wrap_of shallow⟩

end unary

end Grammar

end OperatorGrammar
