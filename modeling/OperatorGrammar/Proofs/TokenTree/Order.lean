import OperatorGrammar.Grammar
import OperatorGrammar.Proofs.TokenTree.Nodes

/-! # Trees that respect the order of operations

What a grammar demands of one node and the trees below it: an infix operator stands over operands
that bind more tightly, or over a use of itself on the side on which it groups; a unary operator
has one operand; a group has one content; the arguments of a function are the operands of a
separator, or one tree.  `Grammar.RespectsOrder` says so for each role, and it can be decided. -/

namespace OperatorGrammar

namespace Grammar

variable (g : Grammar)

/-- A symbol binds more loosely than another: both have a place in the order of operations, and
that of the first comes earlier. -/
def Looser (s t : String) : Prop := ∃ m ∈ g.precedence s, ∃ n ∈ g.precedence t, m < n

/-- Whether a tree can be an operand of an infix operator.  An infix operator at its root has to
bind more tightly, or has to be the same one where that is allowed. -/
def Admits (symbol : String) (same : Bool) (t : TokenTree) : Prop :=
  t.kind.isInfix = true → g.Looser symbol t.name ∨ (same = true ∧ t.name = symbol)

/-- The trees below an infix operator: at least two below a multary one, which does not stand over
itself; two below any other, which stands over itself only on the side on which it groups. -/
def OperandsOrdered (symbol : String) (operands : List TokenTree) : Prop :=
  if g.isMultary symbol then 2 ≤ operands.length ∧ ∀ t ∈ operands, g.Admits symbol false t
  else
    match operands with
    | [left, right] =>
      g.Admits symbol (!g.isRightAssociative symbol) left ∧
        g.Admits symbol (g.isRightAssociative symbol) right
    | _ => False

/-- The trees below a function: none, or one that is no list of arguments, or the operands of a
separator. -/
def ArgumentsOrdered (arguments : List TokenTree) : Prop :=
  arguments = [] ∨
    (arguments.length = 1 ∧
      ∀ t ∈ arguments, ¬ (t.kind.isInfix = true ∧ t.name = g.argumentSeparator)) ∨
    g.OperandsOrdered g.argumentSeparator arguments

/-- Whether a node respects the order of operations, by the role of the node.  Closing delimiters
and roots stand nowhere inside an expression. -/
def RespectsOrder : TokenTree → Prop
  | .node name kind children =>
    match kind with
    | .number | .identifier => children = []
    | .opening => children.length = 1
    | .preUnary => children.length = 1 ∧ ∀ t ∈ children, t.kind.isInfix = false
    | .postUnary =>
      children.length = 1 ∧ ∀ t ∈ children, t.kind.isInfix = false ∧ t.kind ≠ .preUnary
    | .binary | .multary => g.OperandsOrdered name children
    | .function => g.ArgumentsOrdered children
    | .closing | .top => False

/-! ### These can be decided -/

instance (s t : String) : Decidable (g.Looser s t) :=
  inferInstanceAs (Decidable (∃ m ∈ g.precedence s, ∃ n ∈ g.precedence t, m < n))

instance (symbol : String) (same : Bool) : DecidablePred (g.Admits symbol same) := fun t =>
  inferInstanceAs (Decidable (_ → g.Looser symbol t.name ∨ (same = true ∧ t.name = symbol)))

instance (symbol : String) : DecidablePred (g.OperandsOrdered symbol)
  | [left, right] =>
    inferInstanceAs (Decidable (if g.isMultary symbol then _ ∧ ∀ t ∈ [left, right], _ else _ ∧ _))
  | [] => inferInstanceAs (Decidable (if g.isMultary symbol then _ ∧ ∀ t ∈ [], _ else False))
  | [t] => inferInstanceAs (Decidable (if g.isMultary symbol then _ ∧ ∀ u ∈ [t], _ else False))
  | t :: u :: v :: ts =>
    inferInstanceAs
      (Decidable (if g.isMultary symbol then _ ∧ ∀ w ∈ t :: u :: v :: ts, _ else False))

instance : DecidablePred g.ArgumentsOrdered := fun arguments =>
  inferInstanceAs (Decidable (arguments = [] ∨ (_ ∧ ∀ t ∈ arguments, ¬ (_ ∧ _)) ∨ _))

instance : DecidablePred g.RespectsOrder
  | .node _ .number _ | .node _ .identifier _ => inferInstanceAs (Decidable (_ = []))
  | .node _ .opening _ => inferInstanceAs (Decidable (_ = _))
  | .node _ .preUnary children => inferInstanceAs (Decidable (_ ∧ ∀ t ∈ children, _ = _))
  | .node _ .postUnary children => inferInstanceAs (Decidable (_ ∧ ∀ t ∈ children, _ = _ ∧ _ ≠ _))
  | .node name .binary children | .node name .multary children =>
    inferInstanceAs (Decidable (g.OperandsOrdered name children))
  | .node _ .function children => inferInstanceAs (Decidable (g.ArgumentsOrdered children))
  | .node _ .closing _ | .node _ .top _ => inferInstanceAs (Decidable False)

/-! ### Looser symbols -/

variable {g}

theorem looser_iff {s t : String} :
    g.Looser s t ↔ ∃ m n, g.precedence s = some m ∧ g.precedence t = some n ∧ m < n := by
  constructor
  · rintro ⟨m, hm, n, hn, h⟩
    exact ⟨m, n, hm, hn, h⟩
  · rintro ⟨m, n, hm, hn, h⟩
    exact ⟨m, hm, n, hn, h⟩

theorem eq_of_precedence_eq {s t : String} {n : Nat} (hs : g.precedence s = some n)
    (ht : g.precedence t = some n) : s = t := by
  have hs := g.levels_sound s n hs
  have ht := g.levels_sound t n ht
  exact Option.some.inj (hs.symm.trans ht)

theorem Looser.ne {s t : String} (h : g.Looser s t) : s ≠ t := by
  obtain ⟨m, n, hm, hn, hlt⟩ := looser_iff.mp h
  rintro rfl
  rw [hm, Option.some.injEq] at hn
  omega

theorem Looser.trans {s t u : String} (h : g.Looser s t) (k : g.Looser t u) : g.Looser s u := by
  obtain ⟨m, n, hm, hn, hlt⟩ := looser_iff.mp h
  obtain ⟨n', p, hn', hp, hlt'⟩ := looser_iff.mp k
  rw [hn, Option.some.injEq] at hn'
  exact looser_iff.mpr ⟨m, p, hm, hp, by omega⟩

theorem Admits.of_false {symbol : String} {same : Bool} {t : TokenTree}
    (h : g.Admits symbol false t) : g.Admits symbol same t := by
  intro ht
  rcases h ht with h | ⟨h, -⟩
  · exact Or.inl h
  · cases h

theorem operandsOrdered_of_isMultary {symbol : String} (h : g.isMultary symbol = true)
    {operands : List TokenTree} : g.OperandsOrdered symbol operands ↔
      2 ≤ operands.length ∧ ∀ t ∈ operands, g.Admits symbol false t := by
  unfold OperandsOrdered
  rw [if_pos h]

theorem operandsOrdered_of_not_isMultary {symbol : String} (h : ¬ g.isMultary symbol = true)
    {operands : List TokenTree} : g.OperandsOrdered symbol operands ↔
      ∃ left right, operands = [left, right] ∧
        g.Admits symbol (!g.isRightAssociative symbol) left ∧
        g.Admits symbol (g.isRightAssociative symbol) right := by
  unfold OperandsOrdered
  rw [if_neg h]
  constructor
  · intro h
    split at h
    · exact ⟨_, _, rfl, h⟩
    · exact absurd h id
  · rintro ⟨left, right, rfl, h⟩
    exact h

theorem OperandsOrdered.two_le_length {symbol : String} {operands : List TokenTree}
    (h : g.OperandsOrdered symbol operands) : 2 ≤ operands.length := by
  by_cases hm : g.isMultary symbol = true
  · exact ((operandsOrdered_of_isMultary hm).mp h).1
  · obtain ⟨left, right, rfl, -⟩ := (operandsOrdered_of_not_isMultary hm).mp h
    exact Nat.le_refl 2

theorem OperandsOrdered.admits {symbol : String} {operands : List TokenTree}
    (h : g.OperandsOrdered symbol operands) {t : TokenTree} (ht : t ∈ operands) :
    g.Admits symbol true t := by
  by_cases hm : g.isMultary symbol = true
  · exact (((operandsOrdered_of_isMultary hm).mp h).2 t ht).of_false
  · obtain ⟨left, right, rfl, hl, hr⟩ := (operandsOrdered_of_not_isMultary hm).mp h
    intro hi
    rcases (by simpa using ht : t = left ∨ t = right) with rfl | rfl
    · exact (hl hi).imp_right fun h => ⟨rfl, h.2⟩
    · exact (hr hi).imp_right fun h => ⟨rfl, h.2⟩

end Grammar

end OperatorGrammar
