import OperatorGrammar.Grammar
import OperatorGrammar.Token.Scan
import OperatorGrammar.TokenTree

/-! # The in-order reading of a token tree

`TokenTree.inOrder` writes a tree out from left to right: an operator between, before or behind
its operands, a group between its delimiters, a function before its arguments, which stand in an
argument list and are separated.  What is written are marks rather than tokens, since a tree does
not keep everything: a `Mark` leaves open whether an infix operator was taken for binary or
multary, and by which of the closers of its opener a group was closed. -/

namespace OperatorGrammar

/-- What the in-order reading of a tree says about one token. -/
inductive Mark where
  /-- A text with its role. -/
  | word (text : String) (kind : TokenKind)
  /-- An infix use of a symbol. -/
  | between (symbol : String)
  /-- The end of a group. -/
  | closer (opener : String)
deriving DecidableEq, Repr

namespace Mark

variable (g : Grammar)

/-- Whether a token is one of those that a mark stands for. -/
def Fits (token : Token) : Mark → Prop
  | .word text kind => token.text = text ∧ token.kind = kind
  | .between symbol => token.text = symbol ∧ token.kind.isInfix = true
  | .closer opener => token.kind = .closing ∧ g.closes opener token.text = true

/-- The text and the role in which a mark is written out; a group ends with the first closer of its
opener. -/
def spelling : Mark → String × TokenKind
  | .word text kind => (text, kind)
  | .between symbol => (symbol, g.infixKind symbol)
  | .closer opener => (g.closerOf opener, .closing)

end Mark

def Token.spelling (token : Token) : String × TokenKind := (token.text, token.kind)

namespace TokenTree

variable (g : Grammar)

mutual

/-- The in-order reading of a tree. -/
def inOrder : TokenTree → List Mark
  | .node name kind children =>
    match kind with
    | .binary | .multary => [Mark.between name].intercalate (inOrders children)
    | .preUnary => .word name kind :: (inOrders children).flatten
    | .postUnary => (inOrders children).flatten ++ [.word name kind]
    | .opening => .word name kind :: (inOrders children).flatten ++ [.closer name]
    | .function =>
      .word name kind :: .word g.argumentOpener .opening ::
        [Mark.between g.argumentSeparator].intercalate (inOrders children) ++
          [.closer g.argumentOpener]
    | .number | .identifier | .closing | .top => [.word name kind]

def inOrders : List TokenTree → List (List Mark)
  | [] => []
  | t :: ts => inOrder t :: inOrders ts

end

variable {g}

theorem inOrders_eq_map (ts : List TokenTree) : inOrders g ts = ts.map (inOrder g) := by
  induction ts with
  | nil => rfl
  | cons t ts ih => rw [inOrders, ih, List.map_cons]

theorem inOrder_of_isInfix {name : String} {kind : TokenKind} (h : kind.isInfix = true)
    (children : List TokenTree) : (TokenTree.node name kind children).inOrder g =
      [Mark.between name].intercalate (children.map (inOrder g)) := by
  cases kind with
  | binary | multary => simp only [inOrder, inOrders_eq_map]
  | _ => cases h

theorem inOrder_preUnary (name : String) (t : TokenTree) :
    (TokenTree.node name .preUnary [t]).inOrder g = .word name .preUnary :: t.inOrder g := by
  simp [inOrder, inOrders]

theorem inOrder_postUnary (name : String) (t : TokenTree) :
    (TokenTree.node name .postUnary [t]).inOrder g =
      t.inOrder g ++ [.word name .postUnary] := by
  simp [inOrder, inOrders]

theorem inOrder_opening (name : String) (t : TokenTree) :
    (TokenTree.node name .opening [t]).inOrder g =
      .word name .opening :: (t.inOrder g ++ [.closer name]) := by
  simp [inOrder, inOrders]

theorem inOrder_function (name : String) (arguments : List TokenTree) :
    (TokenTree.node name .function arguments).inOrder g =
      .word name .function :: .word g.argumentOpener .opening ::
        ([Mark.between g.argumentSeparator].intercalate (arguments.map (inOrder g)) ++
          [.closer g.argumentOpener]) := by
  simp [inOrder, inOrders_eq_map]

theorem inOrder_leaf {name : String} {kind : TokenKind}
    (h : kind = .number ∨ kind = .identifier) :
    (leaf name kind).inOrder g = [.word name kind] := by
  rcases h with rfl | rfl <;> simp [leaf, inOrder]

end TokenTree

/-! ### Sequences between which a separator stands -/

section intercalate

variable {α : Type} {separator : List α}

theorem intercalate_append {xs ys : List (List α)} (hx : xs ≠ []) (hy : ys ≠ []) :
    separator.intercalate (xs ++ ys) =
      separator.intercalate xs ++ separator ++ separator.intercalate ys := by
  induction xs with
  | nil => exact absurd rfl hx
  | cons x xs ih =>
      cases xs with
      | nil =>
          rw [List.singleton_append, List.intercalate_cons_of_ne_nil hy,
            List.intercalate_singleton, List.append_assoc]
      | cons x' xs =>
          rw [List.cons_append, List.intercalate_cons_of_ne_nil (by simp),
            ih (List.cons_ne_nil _ _), List.intercalate_cons_cons]
          simp only [List.append_assoc]

end intercalate

end OperatorGrammar
