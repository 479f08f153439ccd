import OperatorGrammar.Proofs.Outcome
import OperatorGrammar.Proofs.Row.Split
import Mathlib.Data.List.Induction

/-! # How the tree of a row is built

Each function that builds a tree is described by what its success says.  `Grammar.Joins` is the
relation between the operands of one infix operator and the tree over them, whichever way they are
joined (`combine_eq_ok`); a row without infix operators is prefixes, an operand and suffixes
(`buildOperand_eq_ok`); any other row is split at its loosest operator and its pieces are joined
(`buildExpression_eq_ok`).  `buildExpression_induction` is the induction that follows the
recursion. -/

namespace OperatorGrammar

open Item

theorem Measured.arguments_map_tree (separator : String) (content : Measured) :
    (content.arguments separator).map Measured.tree =
      if content.tree.kind.isInfix = true ∧ content.tree.name = separator then
        content.tree.children
      else [content.tree] := by
  unfold arguments
  by_cases h : content.tree.kind.isInfix = true ∧ content.tree.name = separator
  · rw [if_pos h, if_pos (by simpa using h), List.map_map]
    exact List.map_id _
  · rw [if_neg h, if_neg (by simpa using h)]
    rfl

namespace Grammar

variable {g : Grammar}

theorem wrap_eq_ok {name : String} {kind : TokenKind} {operands : List Measured} {m : Measured} :
    g.wrap name kind operands = .ok m ↔
      1 + Measured.deepest operands ≤ g.maxDepth.toNat ∧
        m = ⟨.node name kind (operands.map Measured.tree), 1 + Measured.deepest operands⟩ := by
  unfold wrap
  by_cases h : g.maxDepth.toNat < 1 + Measured.deepest operands
  · rw [if_pos h]
    simp
    omega
  · rw [if_neg h, Except.ok.injEq, eq_comm, and_iff_right (by omega)]

theorem wrap_eq_error {name : String} {kind : TokenKind} {operands : List Measured}
    {e : ParseError} (h : g.wrap name kind operands = .error e) :
    e = .nestingTooDeep g.maxDepth := by
  simp only [wrap] at h
  split at h
  · cases h
    rfl
  · cases h

/-! ### The operands of one infix operator -/

/-- The trees that an infix operator makes of its operands: a multary one gathers them all, any
other one takes one more from the left, or from the right if it groups there. -/
inductive Joins (g : Grammar) (symbol : String) (kind : TokenKind) : List Measured → Measured → Prop
  | all {operands : List Measured} {m : Measured} (multary : g.isMultary symbol = true) :
      g.wrap symbol kind operands = .ok m → Joins g symbol kind operands m
  | one (binary : ¬ g.isMultary symbol = true) (m : Measured) : Joins g symbol kind [m] m
  | fromLeft {operands : List Measured} {left right m : Measured}
      (binary : ¬ g.isMultary symbol = true) (grouping : ¬ g.isRightAssociative symbol = true) :
      Joins g symbol kind operands left → g.wrap symbol kind [left, right] = .ok m →
        Joins g symbol kind (operands ++ [right]) m
  | fromRight {operands : List Measured} {left right m : Measured}
      (binary : ¬ g.isMultary symbol = true) (grouping : g.isRightAssociative symbol = true) :
      Joins g symbol kind operands right → g.wrap symbol kind [left, right] = .ok m →
        Joins g symbol kind (left :: operands) m

section joins

variable {symbol : String} {kind : TokenKind} {operands : List Measured} {m : Measured}

theorem joins_of_isMultary (hm : g.isMultary symbol = true) :
    Joins g symbol kind operands m ↔ g.wrap symbol kind operands = .ok m := by
  constructor
  · intro h
    cases h with
    | all _ h => exact h
    | one hb | fromLeft hb | fromRight hb => exact absurd hm hb
  · exact Joins.all hm

theorem Joins.ne_nil_of_not_isMultary (h : Joins g symbol kind operands m)
    (hm : ¬ g.isMultary symbol = true) : operands ≠ [] := by
  cases h with
  | all h => exact absurd h hm
  | one => simp
  | fromLeft => simp
  | fromRight => simp

theorem joins_fromLeft (hm : ¬ g.isMultary symbol = true)
    (hr : ¬ g.isRightAssociative symbol = true) (first : Measured) (rest : List Measured) :
    Joins g symbol kind (first :: rest) m ↔
      rest.foldlM (fun left right => g.wrap symbol kind [left, right]) first = .ok m := by
  induction rest using List.reverseRecOn generalizing m with
  | nil =>
      rw [List.foldlM_nil, pure_eq_ok]
      constructor
      · intro h
        generalize ho : [first] = operands at h
        cases h with
        | all h => exact absurd h hm
        | one => simpa using ho
        | fromLeft _ _ h =>
            have ho : [] ++ [first] = _ ++ [_] := ho
            obtain ⟨rfl, -⟩ := List.append_inj' ho rfl
            exact absurd rfl (h.ne_nil_of_not_isMultary hm)
        | fromRight _ h => exact absurd h hr
      · rintro rfl
        exact Joins.one hm first
  | append_singleton rest last ih =>
      rw [List.foldlM_append, bind_eq_ok, ← List.cons_append]
      constructor
      · intro h
        generalize ho : first :: rest ++ [last] = operands at h
        cases h with
        | all h => exact absurd h hm
        | one => simp at ho
        | fromLeft _ _ h hw =>
            obtain ⟨rfl, he⟩ := List.append_inj' ho rfl
            obtain rfl : last = _ := by simpa using he
            exact ⟨_, ih.mp h, by simpa using hw⟩
        | fromRight _ h => exact absurd h hr
      · rintro ⟨left, hl, hw⟩
        exact Joins.fromLeft hm hr (ih.mpr hl) (by simpa using hw)

theorem joins_fromRight (hm : ¬ g.isMultary symbol = true)
    (hr : g.isRightAssociative symbol = true) (rest : List Measured) (last : Measured) :
    Joins g symbol kind (rest ++ [last]) m ↔
      rest.reverse.foldlM (fun right left => g.wrap symbol kind [left, right]) last = .ok m := by
  induction rest generalizing m with
  | nil =>
      rw [List.reverse_nil, List.foldlM_nil, pure_eq_ok, List.nil_append]
      constructor
      · intro h
        generalize ho : [last] = operands at h
        cases h with
        | all h => exact absurd h hm
        | one => simpa using ho
        | fromLeft _ h => exact absurd hr h
        | fromRight _ _ h =>
            obtain ⟨-, rfl⟩ := List.cons.inj ho
            exact absurd rfl (h.ne_nil_of_not_isMultary hm)
      · rintro rfl
        exact Joins.one hm last
  | cons first rest ih =>
      rw [List.reverse_cons, List.foldlM_append, bind_eq_ok, List.cons_append]
      constructor
      · intro h
        generalize ho : first :: (rest ++ [last]) = operands at h
        cases h with
        | all h => exact absurd h hm
        | one => simp at ho
        | fromLeft _ h => exact absurd hr h
        | fromRight _ _ h hw =>
            obtain ⟨rfl, rfl⟩ := List.cons.inj ho
            exact ⟨_, ih.mp h, by simpa using hw⟩
      · rintro ⟨right, hr', hw⟩
        exact Joins.fromRight hm hr (ih.mpr hr') (by simpa using hw)

end joins

theorem combine_eq_ok {operator : Token} {operands : List Measured} {m : Measured} :
    g.combine operator operands = .ok m ↔ Joins g operator.text operator.kind operands m := by
  unfold combine
  by_cases hm : g.isMultary operator.text = true
  · rw [if_pos hm, joins_of_isMultary hm]
  · rw [if_neg hm]
    by_cases hr : g.isRightAssociative operator.text = true
    · rw [if_pos hr]
      cases operands using List.reverseRecOn with
      | nil =>
          simp only [List.reverse_nil, reduceCtorEq, false_iff]
          intro h
          exact h.ne_nil_of_not_isMultary hm rfl
      | append_singleton rest last =>
          rw [List.reverse_append, joins_fromRight hm hr]
          rfl
    · rw [if_neg hr]
      cases operands with
      | nil =>
          simp only [reduceCtorEq, false_iff]
          intro h
          exact h.ne_nil_of_not_isMultary hm rfl
      | cons first rest => rw [joins_fromLeft hm hr]

theorem combine_eq_error {operator : Token} {operands : List Measured} {e : ParseError}
    (hne : operands ≠ []) (h : g.combine operator operands = .error e) :
    e = .nestingTooDeep g.maxDepth := by
  unfold combine at h
  split at h
  · exact wrap_eq_error h
  · split at h
    · split at h
      · next hnil => exact absurd (List.reverse_eq_nil_iff.mp hnil) hne
      · obtain ⟨_, _, _, _, _, _, h⟩ := foldlM_eq_error h
        exact wrap_eq_error h
    · split at h
      · exact absurd rfl hne
      · obtain ⟨_, _, _, _, _, _, h⟩ := foldlM_eq_error h
        exact wrap_eq_error h

/-! ### One operand with its unary operators -/

section unary

variable {kind : TokenKind} {m : Measured}

theorem applyUnary_nil : g.applyUnary kind [] m = .ok m := rfl

theorem applyUnary_concat {tokens : List Token} {token : Token} {m' : Measured} :
    g.applyUnary kind (tokens ++ [token]) m = .ok m' ↔
      ∃ inner, g.applyUnary kind tokens m = .ok inner ∧
        g.wrap token.text kind [inner] = .ok m' := by
  unfold applyUnary
  rw [List.foldlM_append, bind_eq_ok]
  simp

/-- What a node with a unary operator takes over from its operand holds under all of them. -/
theorem applyUnary_preserves {P : TokenTree → Prop} {tokens : List Token} {m' : Measured}
    (h : g.applyUnary kind tokens m = .ok m') (start : P m.tree)
    (step : ∀ name t, P t → P (.node name kind [t])) : P m'.tree := by
  refine foldlM_eq_ok (fun _ x => P x.tree) ?_ [] start h
  intro _ x token x' hx hw
  obtain ⟨-, rfl⟩ := wrap_eq_ok.mp hw
  exact step token.text x.tree hx

theorem applyUnary_eq_error {tokens : List Token} {e : ParseError}
    (h : g.applyUnary kind tokens m = .error e) : e = .nestingTooDeep g.maxDepth := by
  obtain ⟨_, _, _, _, _, _, h⟩ := foldlM_eq_error h
  exact wrap_eq_error h

theorem takeOperand_eq_ok {row rest : List Item} {prefixes taken : List Token}
    {operand : Measured} :
    takeOperand prefixes row = .ok (taken, operand, rest) ↔
      ∃ tokens : List Token, (∀ t ∈ tokens, t.kind = .preUnary) ∧
        row = tokens.map .operator ++ .operand operand :: rest ∧
        taken = tokens.reverse ++ prefixes := by
  induction row generalizing prefixes with
  | nil =>
      unfold takeOperand
      constructor
      · intro h
        split at h <;> cases h
      · rintro ⟨tokens, -, h, -⟩
        simp at h
  | cons item row ih =>
      cases item with
      | operand m =>
          simp only [takeOperand, Except.ok.injEq, Prod.mk.injEq]
          constructor
          · rintro ⟨rfl, rfl, rfl⟩
            exact ⟨[], by simp, rfl, rfl⟩
          · rintro ⟨tokens, -, h, ht⟩
            cases tokens with
            | nil =>
                simp only [List.map_nil, List.nil_append, List.cons.injEq, Item.operand.injEq] at h
                exact ⟨ht.symm, h.1, h.2⟩
            | cons t tokens => simp at h
      | operator token =>
          simp only [takeOperand]
          by_cases hk : token.kind = .preUnary
          · rw [hk, ih]
            constructor
            · rintro ⟨tokens, hp, rfl, rfl⟩
              refine ⟨token :: tokens, ?_, rfl, by simp⟩
              exact List.forall_mem_cons.mpr ⟨hk, hp⟩
            · rintro ⟨tokens, hp, h, ht⟩
              cases tokens with
              | nil => simp at h
              | cons t tokens =>
                  simp only [List.map_cons, List.cons_append, List.cons.injEq,
                    Item.operator.injEq] at h
                  obtain ⟨rfl, rfl⟩ := h
                  exact ⟨tokens, (List.forall_mem_cons.mp hp).2, rfl, by simpa using ht⟩
          · constructor
            · intro h
              split at h
              · next hp => exact absurd hp hk
              · cases h
              · cases h
            · rintro ⟨tokens, hp, h, -⟩
              cases tokens with
              | nil => simp at h
              | cons t tokens =>
                  simp only [List.map_cons, List.cons_append, List.cons.injEq,
                    Item.operator.injEq] at h
                  obtain ⟨rfl, -⟩ := h
                  exact absurd (List.forall_mem_cons.mp hp).1 hk

theorem takeSuffixes_eq_ok {row : List Item} {suffixes : List Token} :
    takeSuffixes row = .ok suffixes ↔
      row = suffixes.map .operator ∧ ∀ t ∈ suffixes, t.kind = .postUnary := by
  induction row generalizing suffixes with
  | nil =>
      unfold takeSuffixes
      rw [Except.ok.injEq]
      constructor
      · rintro rfl
        simp
      · rintro ⟨h, -⟩
        exact (List.map_eq_nil_iff.mp h.symm).symm
  | cons item row ih =>
      unfold takeSuffixes
      cases item with
      | operand m =>
          simp only [reduceCtorEq, false_iff, not_and]
          intro h
          cases suffixes <;> simp at h
      | operator token =>
          by_cases hk : token.kind = .postUnary
          · simp only [if_pos hk]
            rw [bind_eq_ok]
            constructor
            · rintro ⟨rest, hr, h⟩
              obtain rfl := pure_eq_ok.mp h
              obtain ⟨rfl, hp⟩ := ih.mp hr
              exact ⟨rfl, List.forall_mem_cons.mpr ⟨hk, hp⟩⟩
            · rintro ⟨h, hp⟩
              obtain ⟨t, rest, rfl, ht, hr⟩ := List.map_eq_cons_iff.mp h.symm
              obtain rfl := Item.operator.inj ht
              exact ⟨rest, ih.mpr ⟨hr.symm, (List.forall_mem_cons.mp hp).2⟩, rfl⟩
          · simp only [if_neg hk, reduceCtorEq, false_iff, not_and]
            intro h hp
            obtain ⟨t, rest, rfl, ht, -⟩ := List.map_eq_cons_iff.mp h.symm
            obtain rfl := Item.operator.inj ht
            exact hk (List.forall_mem_cons.mp hp).1

theorem buildOperand_append {prefixes suffixes : List Token} (operand : Measured)
    (hp : ∀ t ∈ prefixes, t.kind = .preUnary) (hs : ∀ t ∈ suffixes, t.kind = .postUnary) :
    g.buildOperand (prefixes.map .operator ++ .operand operand :: suffixes.map .operator) =
      g.applyUnary .postUnary suffixes operand >>= g.applyUnary .preUnary prefixes.reverse := by
  have htake : takeOperand [] (prefixes.map .operator ++ .operand operand ::
      suffixes.map .operator) = .ok (prefixes.reverse, operand, suffixes.map .operator) :=
    takeOperand_eq_ok.mpr ⟨prefixes, hp, rfl, by simp⟩
  have hrest : takeSuffixes (suffixes.map .operator) = .ok suffixes :=
    takeSuffixes_eq_ok.mpr ⟨rfl, hs⟩
  unfold buildOperand
  rw [htake]
  change takeSuffixes (suffixes.map .operator) >>= _ = _
  rw [hrest]
  rfl

/-- The tree of a row without infix operators: the suffixes stand over the operand, and the
prefixes over both, the first one at the root. -/
theorem buildOperand_eq_ok {row : List Item} :
    g.buildOperand row = .ok m ↔
      ∃ (prefixes : List Token) (operand : Measured) (suffixes : List Token) (inner : Measured),
        row = prefixes.map .operator ++ .operand operand :: suffixes.map .operator ∧
        (∀ t ∈ prefixes, t.kind = .preUnary) ∧ (∀ t ∈ suffixes, t.kind = .postUnary) ∧
        g.applyUnary .postUnary suffixes operand = .ok inner ∧
        g.applyUnary .preUnary prefixes.reverse inner = .ok m := by
  constructor
  · intro h
    unfold buildOperand at h
    obtain ⟨⟨taken, operand, rest⟩, ht, hb⟩ := bind_eq_ok.mp h
    obtain ⟨suffixes, hs, hc⟩ := bind_eq_ok.mp hb
    obtain ⟨inner, hi, hm⟩ := bind_eq_ok.mp hc
    obtain ⟨prefixes, hp, rfl, rfl⟩ := takeOperand_eq_ok.mp ht
    obtain ⟨rfl, hk⟩ := takeSuffixes_eq_ok.mp hs
    rw [List.append_nil] at hm
    exact ⟨prefixes, operand, suffixes, inner, rfl, hp, hk, hi, hm⟩
  · rintro ⟨prefixes, operand, suffixes, inner, rfl, hp, hs, hi, hm⟩
    rw [buildOperand_append operand hp hs]
    exact bind_eq_ok.mpr ⟨inner, hi, hm⟩

end unary

/-! ### Rows -/

/-- The tree of a piece of a row; an operator needs something on either side. -/
def buildPiece (g : Grammar) (symbol : String) (piece : List Item) : Except ParseError Measured :=
  if piece.isEmpty then .error (.missingOperand symbol) else g.buildExpression piece

theorem buildPiece_eq_ok {symbol : String} {piece : List Item} {m : Measured} :
    g.buildPiece symbol piece = .ok m ↔ piece ≠ [] ∧ g.buildExpression piece = .ok m := by
  unfold buildPiece
  cases piece with
  | nil => simp
  | cons item rest => simp

theorem ne_nil_of_mapM_splitAtSymbol {symbol : String} {row : List Item}
    {f : List Item → Except ParseError Measured} {operands : List Measured}
    (h : (splitAtSymbol symbol row).mapM f = .ok operands) : operands ≠ [] := by
  rintro rfl
  have := (mapM_eq_ok.mp h).length_eq
  rw [List.length_nil, List.length_eq_zero_iff] at this
  exact splitAtSymbol_ne_nil symbol row this

theorem buildExpression_of_loosest_none {row : List Item} (h : g.loosest row = .ok none) :
    g.buildExpression row = g.buildOperand row := by
  rw [buildExpression]
  split
  · next h' => rw [h] at h'; cases h'
  · rfl
  · next h' => rw [h] at h'; cases h'

theorem buildExpression_of_loosest_some {row : List Item} {operator : Token}
    (h : g.loosest row = .ok (some operator)) : g.buildExpression row =
      (splitAtSymbol operator.text row).mapM (g.buildPiece operator.text) >>=
        g.combine operator := by
  rw [buildExpression]
  split
  · next h' => rw [h] at h'; cases h'
  · next h' => rw [h] at h'; cases h'
  · next operator' h' =>
    rw [h] at h'
    cases h'
    rw [List.mapM_subtype (g := g.buildPiece operator.text) (fun _ _ => rfl),
      List.unattach_attach]

theorem buildExpression_of_loosest_error {row : List Item} {e : ParseError}
    (h : g.loosest row = .error e) : g.buildExpression row = .error e := by
  rw [buildExpression]
  split
  · next h' => rw [h] at h'; cases h'; rfl
  · next h' => rw [h] at h'; cases h'
  · next h' => rw [h] at h'; cases h'

/-- The tree of a row is that of one operand, or joins the trees of the pieces between the uses of
the loosest operator. -/
theorem buildExpression_eq_ok {row : List Item} {m : Measured} :
    g.buildExpression row = .ok m ↔
      (infixTokens row = [] ∧ g.buildOperand row = .ok m) ∨
      ∃ operator operands, g.loosest row = .ok (some operator) ∧
        List.Forall₂ (fun piece operand => piece ≠ [] ∧ g.buildExpression piece = .ok operand)
          (splitAtSymbol operator.text row) operands ∧
        Joins g operator.text operator.kind operands m := by
  cases h : g.loosest row with
  | error e =>
      rw [buildExpression_of_loosest_error h]
      simp only [reduceCtorEq, false_and, exists_false, or_false, false_iff, not_and]
      intro hn
      rw [loosest_eq_none.mpr hn] at h
      cases h
  | ok found =>
      cases found with
      | none =>
          rw [buildExpression_of_loosest_none h]
          simp [loosest_eq_none.mp h]
      | some operator =>
          have hn : infixTokens row ≠ [] := List.ne_nil_of_mem (loosest_eq_some h).1
          rw [buildExpression_of_loosest_some h, bind_eq_ok]
          simp only [mapM_eq_ok, buildPiece_eq_ok, combine_eq_ok, hn, false_and, false_or,
            Except.ok.injEq, Option.some.injEq]
          constructor
          · rintro ⟨operands, hp, hj⟩
            exact ⟨operator, operands, rfl, hp, hj⟩
          · rintro ⟨_, operands, rfl, hp, hj⟩
            exact ⟨operands, hp, hj⟩

/-- Every piece of a row is shorter than the row, so what holds of a row whenever it holds of the
pieces at its loosest operator holds of every row. -/
theorem row_induction {P : List Item → Prop}
    (row : ∀ row, (∀ operator, g.loosest row = .ok (some operator) →
      ∀ piece ∈ splitAtSymbol operator.text row, P piece) → P row) (items : List Item) :
    P items := by
  induction hn : items.length using Nat.strongRecOn generalizing items with
  | _ n ih =>
      refine row items fun operator ho piece hp => ?_
      obtain ⟨item, hi, ht⟩ := loosest_mem ho
      have := splitAtSymbol_length_lt operator.text items
        ⟨item, hi, separates_of_infixToken? ht⟩ piece hp
      exact ih piece.length (hn ▸ this) piece rfl

/-- The induction along the building of a tree. -/
theorem buildExpression_induction {P : List Item → Measured → Prop}
    (operand : ∀ row m, infixTokens row = [] → g.buildOperand row = .ok m → P row m)
    (operator : ∀ row operator operands m, g.loosest row = .ok (some operator) →
      List.Forall₂ (fun piece operand => piece ≠ [] ∧ g.buildExpression piece = .ok operand ∧
        P piece operand) (splitAtSymbol operator.text row) operands →
      Joins g operator.text operator.kind operands m → P row m)
    {row : List Item} {m : Measured} (h : g.buildExpression row = .ok m) : P row m := by
  induction row using row_induction (g := g) generalizing m with
  | row row ih =>
      rcases buildExpression_eq_ok.mp h with ⟨hn, h⟩ | ⟨token, operands, ho, hp, hj⟩
      · exact operand row m hn h
      · refine operator row token operands m ho ?_ hj
        exact forall₂_and_mem hp fun piece x hm hx => ⟨hx.1, hx.2, ih token ho piece hm hx.2⟩

end Grammar

end OperatorGrammar
