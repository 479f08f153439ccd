import OperatorGrammar.Grammar
import OperatorGrammar.ParseError
import OperatorGrammar.TokenTree

/-! # From operands and operators to a tree

Once the groups and calls of an expression are trees, it is a row of items: finished operands and
the operators between, before and behind them.  The row is split at its loosest infix operator, and
so is each piece; a piece without infix operators is one operand with its prefixes and suffixes.
Every node is made by `Grammar.wrap`, which keeps trees within the depth limit. -/

namespace OperatorGrammar

/-- A tree and its depth, which is kept so that no finished tree is walked again. -/
structure Measured where
  tree : TokenTree
  depth : Nat
deriving Inhabited

/-- One item of a row: a finished operand, or an operator that waits for its operands. -/
inductive Item where
  | operand (operand : Measured)
  | operator (token : Token)
deriving Inhabited

namespace Item

/-- The token of an infix operator. -/
def infixToken? : Item → Option Token
  | .operator token => if token.kind.isInfix then some token else none
  | .operand _ => none

/-- Whether an item is an infix use of a symbol. -/
def separates (symbol : String) (item : Item) : Bool :=
  item.infixToken?.any fun token => token.text == symbol

end Item

namespace Measured

def leaf (name : String) (kind : TokenKind) : Measured := ⟨.leaf name kind, 1⟩

/-- The greatest of some depths. -/
def deepest (operands : List Measured) : Nat := (operands.map Measured.depth).foldr max 0

/-- The arguments that the content of an argument list stands for: the operands of a separator at
its root, or the content alone.  One argument may be flatter than the separator made it, but the
deepest one is not. -/
def arguments (separator : String) (content : Measured) : List Measured :=
  if content.tree.kind.isInfix && content.tree.name == separator then
    content.tree.children.map fun t => ⟨t, content.depth - 1⟩
  else [content]

end Measured

/-- The pieces of a row between the infix uses of a symbol, which is one more than there are
uses. -/
def splitAtSymbol (symbol : String) : List Item → List (List Item)
  | [] => [[]]
  | item :: rest =>
    if item.separates symbol then [] :: splitAtSymbol symbol rest
    else
      match splitAtSymbol symbol rest with
      | [] => [[item]]
      | piece :: pieces => (item :: piece) :: pieces

theorem splitAtSymbol_length_le (symbol : String) (items : List Item) :
    ∀ piece ∈ splitAtSymbol symbol items, piece.length ≤ items.length := by
  induction items with
  | nil => simp [splitAtSymbol]
  | cons item rest ih =>
    intro piece h
    unfold splitAtSymbol at h
    split at h
    · rcases List.mem_cons.1 h with rfl | h
      · simp
      · exact Nat.le_succ_of_le (ih piece h)
    · split at h
      · simp_all
      · next p ps hp =>
        rcases List.mem_cons.1 h with rfl | h
        · have := ih p (by simp [hp])
          simpa using this
        · exact Nat.le_succ_of_le (ih piece (by simp [hp, h]))

/-- Every piece is shorter than a row in which the symbol occurs. -/
theorem splitAtSymbol_length_lt (symbol : String) (items : List Item)
    (h : ∃ item ∈ items, item.separates symbol = true) :
    ∀ piece ∈ splitAtSymbol symbol items, piece.length < items.length := by
  induction items with
  | nil => simp at h
  | cons item rest ih =>
    intro piece hp
    unfold splitAtSymbol at hp
    split at hp
    · rcases List.mem_cons.1 hp with rfl | hp
      · simp
      · exact Nat.lt_succ_of_le (splitAtSymbol_length_le symbol rest piece hp)
    · next hitem =>
      have h : ∃ item ∈ rest, item.separates symbol = true := by
        obtain ⟨x, hx, hs⟩ := h
        rcases List.mem_cons.1 hx with rfl | hx
        · exact absurd hs hitem
        · exact ⟨x, hx, hs⟩
      split at hp
      · obtain rfl := List.mem_singleton.1 hp
        obtain ⟨x, hx, -⟩ := h
        simpa using List.length_pos_of_mem hx
      · next p ps hps =>
        rcases List.mem_cons.1 hp with rfl | hp
        · have := ih h p (by simp [hps])
          simpa using this
        · exact Nat.lt_succ_of_lt (ih h piece (by simp [hps, hp]))

namespace Grammar

variable (g : Grammar)

/-- A node over finished operands, unless it would be too deep. -/
def wrap (name : String) (kind : TokenKind) (operands : List Measured) :
    Except ParseError Measured :=
  let depth := 1 + Measured.deepest operands
  if g.maxDepth.toNat < depth then .error (.nestingTooDeep g.maxDepth)
  else .ok ⟨.node name kind (operands.map Measured.tree), depth⟩

/-- The first of the loosest infix operators of a row, among those that come and the one found
before; an infix operator without precedence is an error. -/
def loosestFrom (found : Option (Token × Nat)) : List Item →
    Except ParseError (Option (Token × Nat))
  | [] => .ok found
  | item :: rest =>
    match item.infixToken? with
    | none => loosestFrom found rest
    | some token =>
      match g.precedence token.text, found with
      | none, _ => .error (.noPrecedence token.text)
      | some level, none => loosestFrom (some (token, level)) rest
      | some level, some (best, lowest) =>
        loosestFrom (some (if level < lowest then (token, level) else (best, lowest))) rest

/-- The first of the loosest infix operators of a row. -/
def loosest (items : List Item) : Except ParseError (Option Token) :=
  (g.loosestFrom none items).map fun found => found.map Prod.fst

theorem loosestFrom_mem {g : Grammar} {found : Option (Token × Nat)} {items : List Item}
    {token : Token} {level : Nat} (h : g.loosestFrom found items = .ok (some (token, level))) :
    found = some (token, level) ∨ ∃ item ∈ items, item.infixToken? = some token := by
  induction items generalizing found with
  | nil => exact Or.inl (by simpa [loosestFrom] using h)
  | cons item rest ih =>
    unfold loosestFrom at h
    split at h
    · rcases ih h with h | ⟨x, hx, hs⟩
      · exact Or.inl h
      · exact Or.inr ⟨x, List.mem_cons_of_mem _ hx, hs⟩
    · next t ht =>
      split at h
      · simp at h
      · rcases ih h with h | ⟨x, hx, hs⟩
        · simp only [Option.some.injEq, Prod.mk.injEq] at h
          exact Or.inr ⟨item, by simp, by rw [ht, h.1]⟩
        · exact Or.inr ⟨x, List.mem_cons_of_mem _ hx, hs⟩
      · rcases ih h with h | ⟨x, hx, hs⟩
        · split at h
          · simp only [Option.some.injEq, Prod.mk.injEq] at h
            exact Or.inr ⟨item, by simp, by rw [ht, h.1]⟩
          · exact Or.inl h
        · exact Or.inr ⟨x, List.mem_cons_of_mem _ hx, hs⟩

theorem loosest_mem {g : Grammar} {items : List Item} {token : Token}
    (h : g.loosest items = .ok (some token)) : ∃ item ∈ items, item.infixToken? = some token := by
  unfold loosest at h
  cases hf : g.loosestFrom none items with
  | error e => simp [hf, Except.map] at h
  | ok found =>
    match found with
    | none => simp [hf, Except.map] at h
    | some (t, level) =>
      simp only [hf, Except.map, Option.map_some, Except.ok.injEq, Option.some.injEq] at h
      subst h
      rcases loosestFrom_mem hf with h | h
      · simp at h
      · exact h

/-- Joins the operands of an infix operator: a multary one gathers them all, any other one pairs
them up from the left, or from the right if it groups there. -/
def combine (operator : Token) (operands : List Measured) : Except ParseError Measured :=
  if g.isMultary operator.text then g.wrap operator.text operator.kind operands
  else if g.isRightAssociative operator.text then
    match operands.reverse with
    | [] => .error (.missingOperand operator.text)
    | last :: rest =>
      rest.foldlM (fun right left => g.wrap operator.text operator.kind [left, right]) last
  else
    match operands with
    | [] => .error (.missingOperand operator.text)
    | first :: rest =>
      rest.foldlM (fun left right => g.wrap operator.text operator.kind [left, right]) first

/-! ### One operand with its unary operators -/

/-- The prefixes before an operand, the last one first, the operand, and what follows it. -/
def takeOperand (prefixes : List Token) : List Item →
    Except ParseError (List Token × Measured × List Item)
  | [] =>
    match prefixes with
    | token :: _ => .error (.missingOperand token.text)
    | [] => .error .emptyExpression
  | .operand operand :: rest => .ok (prefixes, operand, rest)
  | .operator token :: rest =>
    match token.kind with
    | .preUnary => takeOperand (token :: prefixes) rest
    | .postUnary => .error (.missingOperand token.text)
    | _ => .error (.malformedTree token.text)

/-- The suffixes behind an operand; nothing else may follow it. -/
def takeSuffixes : List Item → Except ParseError (List Token)
  | [] => .ok []
  | .operand operand :: _ => .error (.malformedTree operand.tree.text)
  | .operator token :: rest =>
    if token.kind = .postUnary then do
      let suffixes ← takeSuffixes rest
      return token :: suffixes
    else .error (.malformedTree token.text)

def applyUnary (kind : TokenKind) (tokens : List Token) (operand : Measured) :
    Except ParseError Measured :=
  tokens.foldlM (fun operand token => g.wrap token.text kind [operand]) operand

/-- The tree of a row without infix operators.  The suffixes bind first, then the prefixes from
the inside out. -/
def buildOperand (items : List Item) : Except ParseError Measured := do
  let (prefixes, operand, rest) ← takeOperand [] items
  let suffixes ← takeSuffixes rest
  let operand ← g.applyUnary .postUnary suffixes operand
  g.applyUnary .preUnary prefixes operand

/-! ### Rows -/

theorem separates_of_infixToken? {item : Item} {token : Token}
    (h : item.infixToken? = some token) : item.separates token.text = true := by
  simp [Item.separates, h]

/-- The tree of a row of items. -/
def buildExpression (items : List Item) : Except ParseError Measured :=
  match _found : g.loosest items with
  | .error e => .error e
  | .ok none => g.buildOperand items
  | .ok (some operator) => do
    let operands ← (splitAtSymbol operator.text items).attach.mapM fun ⟨piece, _mem⟩ =>
      if piece.isEmpty then .error (.missingOperand operator.text) else buildExpression piece
    g.combine operator operands
termination_by items.length
decreasing_by
  obtain ⟨item, hi, ht⟩ := loosest_mem _found
  exact splitAtSymbol_length_lt _ _ ⟨item, hi, separates_of_infixToken? ht⟩ _ _mem

end Grammar

end OperatorGrammar
