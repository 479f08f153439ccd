import Mathlib.Data.Finset.Card
import OperatorGrammar.Grammar.Bundled
import OperatorGrammar.Proofs.Row.Spread

/-! # How deep the building of a row goes

Building a row asks for the trees of its pieces, and building those asks for the trees of theirs
(`Grammar.Asks`).  The symbol that a row is split at occurs in none of its pieces and all other
infix operators bind more tightly, so that each piece has fewer infix symbols than the row
(`Asks.tighter`, `Asks.infixSymbols_ssubset`).  Hence calls are nested no deeper than a row has
infix symbols, however often it uses them (`length_le_of_isChain`), and room for so many calls is
all that building needs (`buildWithin_eq`). -/

namespace OperatorGrammar

open Item

/-! ### The infix symbols of a row -/

namespace Item

variable {row : List Item} {symbol : String}

/-- The symbols of the infix operators of a row, each of them once. -/
def infixSymbols (row : List Item) : Finset String := ((infixTokens row).map Token.text).toFinset

theorem mem_infixSymbols :
    symbol ∈ infixSymbols row ↔ ∃ token ∈ infixTokens row, token.text = symbol := by
  rw [infixSymbols, List.mem_toFinset, List.mem_map]

end Item

namespace Grammar

variable {g : Grammar} {operator : Token} {row piece : List Item}

/-! ### One call -/

/-- Building a row asks for the tree of a piece: one of those between the uses of the loosest
operator, unless nothing stands there. -/
structure Asks (g : Grammar) (operator : Token) (row piece : List Item) : Prop where
  loosest : g.loosest row = .ok (some operator)
  mem : piece ∈ splitAtSymbol operator.text row
  ne_nil : piece ≠ []

/-- Building a row asks for the tree of a piece of it, whichever operator it is split at. -/
def Recurs (g : Grammar) (row piece : List Item) : Prop := ∃ operator, g.Asks operator row piece

/-- What is left to build binds more tightly than the operator that the row is split at. -/
theorem Asks.tighter (h : g.Asks operator row piece) : g.Tighter operator.text piece := by
  intro token ht
  obtain ⟨hrow, hne⟩ := mem_infixTokens_piece h.mem ht
  exact ((loosest_eq_some h.loosest).2 token hrow).resolve_left hne

/-- No infix symbol is new in a piece, and the operator of the row is gone. -/
theorem Asks.infixSymbols_ssubset (h : g.Asks operator row piece) :
    infixSymbols piece ⊂ infixSymbols row := by
  rw [Finset.ssubset_iff_of_subset]
  · refine ⟨operator.text, mem_infixSymbols.mpr ⟨operator, (loosest_eq_some h.loosest).1, rfl⟩, ?_⟩
    intro hmem
    obtain ⟨token, ht, htext⟩ := mem_infixSymbols.mp hmem
    exact (h.tighter token ht).ne htext.symm
  · intro symbol hmem
    obtain ⟨token, ht, rfl⟩ := mem_infixSymbols.mp hmem
    exact mem_infixSymbols.mpr ⟨token, (mem_infixTokens_piece h.mem ht).1, rfl⟩

/-! ### Calls inside one another -/

/-- Each call in a chain of them has one infix symbol less to do with. -/
theorem length_le_of_isChain {calls : List (List Item)} (h : (row :: calls).IsChain g.Recurs) :
    calls.length ≤ (infixSymbols row).card := by
  induction calls generalizing row with
  | nil => exact Nat.zero_le _
  | cons piece calls ih =>
      rw [List.isChain_cons_cons] at h
      obtain ⟨⟨operator, asks⟩, rest⟩ := h
      have hlt := Finset.card_lt_card asks.infixSymbols_ssubset
      have hle := ih rest
      rw [List.length_cons]
      omega

/-- The tree of a row, built with room for so many calls inside one another; nothing where there
are more. -/
def buildWithin (g : Grammar) : (room : Nat) → List Item → ExceptT ParseError Option Measured
  | 0, _ => ExceptT.mk none
  | room + 1, row =>
    match g.loosest row with
    | .error e => throw e
    | .ok none => ExceptT.mk (some (g.buildOperand row))
    | .ok (some operator) => do
      let operands ← (splitAtSymbol operator.text row).mapM fun piece =>
        if piece.isEmpty then throw (.missingOperand operator.text) else g.buildWithin room piece
      ExceptT.mk (some (g.combine operator operands))

theorem mapM_of_room {α β ε : Type} {f : α → Except ε β} {f' : α → ExceptT ε Option β}
    {xs : List α} (h : ∀ x ∈ xs, f' x = ExceptT.mk (some (f x))) :
    xs.mapM f' = ExceptT.mk (some (xs.mapM f)) := by
  induction xs with
  | nil => rfl
  | cons x xs ih =>
      rw [List.forall_mem_cons] at h
      rw [List.mapM_cons, List.mapM_cons, h.1, ih h.2]
      cases f x with
      | error e => rfl
      | ok y => cases xs.mapM f <;> rfl

/-- **Room for one call more than a row has infix symbols suffices.** -/
theorem buildWithin_eq {room : Nat} (h : (infixSymbols row).card < room) :
    g.buildWithin room row = ExceptT.mk (some (g.buildExpression row)) := by
  induction room generalizing row with
  | zero => exact absurd h (Nat.not_lt_zero _)
  | succ room ih =>
      unfold buildWithin
      cases hl : g.loosest row with
      | error e => rw [buildExpression_of_loosest_error hl]; rfl
      | ok found =>
          cases found with
          | none => rw [buildExpression_of_loosest_none hl]
          | some operator =>
              rw [buildExpression_of_loosest_some hl]
              have pieces : ∀ piece ∈ splitAtSymbol operator.text row,
                  (if piece.isEmpty then throw (.missingOperand operator.text)
                    else g.buildWithin room piece) =
                  ExceptT.mk (some (g.buildPiece operator.text piece)) := by
                intro piece hp
                unfold buildPiece
                split
                · rfl
                · next hne =>
                  have asks : g.Asks operator row piece :=
                    ⟨hl, hp, fun hnil => hne (List.isEmpty_iff.mpr hnil)⟩
                  have hlt := Finset.card_lt_card asks.infixSymbols_ssubset
                  exact ih (by omega)
              dsimp only
              rw [mapM_of_room pieces]
              cases (splitAtSymbol operator.text row).mapM (g.buildPiece operator.text) <;> rfl

/-- **Building descends by levels of precedence.**  Where a row is split, each piece that is built
has infix operators only that bind more tightly than the one it is split at, and so fewer infix
symbols than the row.  Calls are nested no deeper than one more than there are infix symbols in the
row, and with room for so many the tree is the one that is built without a bound. -/
theorem buildExpression_levels (g : Grammar) (row : List Item) :
    (∀ operator piece, g.Asks operator row piece →
      (∀ token ∈ infixTokens piece, g.Looser operator.text token.text) ∧
        infixSymbols piece ⊂ infixSymbols row) ∧
    (∀ calls, (row :: calls).IsChain g.Recurs →
      (row :: calls).length ≤ (infixSymbols row).card + 1) ∧
    (g.buildWithin ((infixSymbols row).card + 1) row).run = some (g.buildExpression row) := by
  refine ⟨fun operator piece asks => ⟨asks.tighter, asks.infixSymbols_ssubset⟩, ?_, ?_⟩
  · intro calls h
    exact Nat.succ_le_succ (length_le_of_isChain h)
  · rw [buildWithin_eq (Nat.lt_succ_self _)]
    rfl

/-- A sum of products is split twice, which is as often as it can be with two infix symbols, though
it uses them four times; room for two calls does not suffice. -/
theorem buildExpression_levels_sample :
    let operand (name : String) : Item := .operand (.leaf name .identifier)
    let plus (position : Nat) : Token := ⟨"+", .multary, position⟩
    let times (position : Nat) : Token := ⟨"*", .multary, position⟩
    let product : List Item := [operand "b", .operator (times 3), operand "c", .operator (times 5),
      operand "d"]
    let row : List Item := operand "a" :: .operator (plus 1) :: product ++
      [.operator (plus 7), operand "e"]
    Grammar.real.Asks (plus 1) row product ∧
      (∀ token ∈ infixTokens product, Grammar.real.Looser "+" token.text) ∧
      infixSymbols product ⊂ infixSymbols row ∧
      [row, product, [operand "b"]].IsChain Grammar.real.Recurs ∧
      [row, product, [operand "b"]].length = (infixSymbols row).card + 1 ∧
      [row, product, [operand "b"]].length ≤ (infixSymbols row).card + 1 ∧
      (Grammar.real.buildWithin 2 row).run.isNone = true := by
  intro operand plus times product row
  have hrow : Grammar.real.Asks (plus 1) row product :=
    ⟨rfl, List.mem_cons_of_mem _ List.mem_cons_self, List.cons_ne_nil _ _⟩
  have hproduct : Grammar.real.Asks (times 3) product [operand "b"] :=
    ⟨rfl, List.mem_cons_self, List.cons_ne_nil _ _⟩
  have chain : [row, product, [operand "b"]].IsChain Grammar.real.Recurs :=
    .cons_cons ⟨_, hrow⟩ (.cons_cons ⟨_, hproduct⟩ (.singleton _))
  obtain ⟨calls, levels, -⟩ := buildExpression_levels Grammar.real row
  exact ⟨hrow, (calls _ _ hrow).1, (calls _ _ hrow).2, chain, by decide, levels _ chain,
    by decide⟩

end Grammar

end OperatorGrammar
