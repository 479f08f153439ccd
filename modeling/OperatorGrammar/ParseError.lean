import OperatorGrammar.Callable

/-! # Why a text is no expression

The causes of failure while tokens are read, a tree is built from them, and its names are bound;
their wording is in `ParseError.message`. -/

namespace OperatorGrammar

/-- Why a text cannot be read as an expression. -/
inductive ParseError where
  | emptyExpression
  | unterminated (opener closer : String) (position : Nat)
  | unmatchedClose (closer : String) (position : Nat)
  | unrecognized (text : String) (position : Nat)
  | noPrecedence (operator : String)
  | unknownIdentifier (name : String)
  | unknownOperator (symbol : String)
  | arityMismatch (name : String) (expected : Arity) (found : Nat)
  | missingOperand (operator : String)
  | malformedTree (node : String)
  | nestingTooDeep (limit : UInt64)
deriving DecidableEq, Repr

def ParseError.message : ParseError → String
  | .emptyExpression => "Empty expression."
  | .unterminated opener closer position =>
    "Error at position " ++ toString position ++ ": '" ++ opener ++ "' is never closed by '" ++
      closer ++ "'."
  | .unmatchedClose closer position =>
    "Error at position " ++ toString position ++ ": Unmatched closing delimiter '" ++ closer ++ "'."
  | .unrecognized text position =>
    "Error at position " ++ toString position ++ ": Unrecognized token '" ++ text ++ "'."
  | .noPrecedence operator =>
    "Precedence conflict for operator '" ++ operator ++
      "': it is missing from the order of operations."
  | .unknownIdentifier name => "Unknown identifier '" ++ name ++ "'."
  | .unknownOperator symbol =>
    "Operator '" ++ symbol ++ "' has no implementation for this position."
  | .arityMismatch name expected found =>
    "'" ++ name ++ "' expects " ++ expected.text ++ " argument(s) but was given " ++
      toString found ++ "."
  | .missingOperand operator => "Operator '" ++ operator ++ "' is missing an operand."
  | .malformedTree node => "Token tree node '" ++ node ++ "' cannot appear here."
  | .nestingTooDeep limit =>
    "Expression nesting exceeds the limit of " ++ toString limit.toNat ++ "."

end OperatorGrammar
