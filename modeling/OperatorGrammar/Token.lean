/-! # Tokens

A token is a piece of text with the role that it plays where it stands. -/

namespace OperatorGrammar

/-- The roles of tokens.  `top` is that of the root of a token tree and of no token in a text. -/
inductive TokenKind where
  | opening
  | closing
  | number
  | identifier
  | preUnary
  | postUnary
  | binary
  | multary
  | function
  | top
deriving DecidableEq, Repr, Inhabited

namespace TokenKind

def text : TokenKind → String
  | .opening => "ParentheticalOpen"
  | .closing => "ParentheticalClose"
  | .number => "Number"
  | .identifier => "Identifier"
  | .preUnary => "PreUnaryOperator"
  | .postUnary => "PostUnaryOperator"
  | .binary => "BinaryOperator"
  | .multary => "MultaryOperator"
  | .function => "Function"
  | .top => "Top"

def all : List TokenKind :=
  [.opening, .closing, .number, .identifier, .preUnary, .postUnary, .binary, .multary, .function,
    .top]

/-- Whether an operand has to follow.  Where one does, a symbol is a prefix; elsewhere it stands
between operands or behind one. -/
def expectsOperandAfter : TokenKind → Bool
  | .opening | .preUnary | .binary | .multary | .function | .top => true
  | .closing | .number | .identifier | .postUnary => false

/-- Whether an operator stands between operands. -/
def isInfix : TokenKind → Bool
  | .binary | .multary => true
  | _ => false

end TokenKind

/-- A piece of text, its role, and the byte at which it begins.  An operator that is not written
has the place of the token behind it. -/
structure Token where
  text : String
  kind : TokenKind
  position : Nat
deriving DecidableEq, Repr, Inhabited

end OperatorGrammar
