import OperatorGrammar.Value

/-! # Callables and what can go wrong when they are called

A callable is a named implementation that takes a fixed number of arguments or all of them as one
list.  The causes of failure are constructors; their wording is in `EvaluationError.message`. -/

namespace OperatorGrammar

/-- How many arguments a callable takes. -/
inductive Arity where
  | exactly (n : Nat)
  | any
deriving DecidableEq, Repr

namespace Arity

/-- Whether a number of arguments fits. -/
def admits : Arity → Nat → Bool
  | .exactly n, count => count == n
  | .any, _ => true

/-- How messages speak of an arity. -/
def text : Arity → String
  | .exactly n => toString n
  | .any => "any number of"

end Arity

/-- Why an argument is refused although it is of the right kind. -/
inductive ArgumentFault where
  | undefinedAt (function : String) (x : Float)
  | factorialTooLarge (x : Float)
  | powerNotReal (base exponent : Float)
  | logarithmBase (base : Float)
  | noNumbers (function : String)
  | noArgumentList (label : String)

def ArgumentFault.text : ArgumentFault → String
  | .undefinedAt function x => function ++ " is undefined for " ++ Double.text x
  | .factorialTooLarge x => Double.text x ++ "! is too large"
  | .powerNotReal base exponent =>
    Double.text base ++ "^" ++ Double.text exponent ++ " is not a finite real number"
  | .logarithmBase base => "logarithm base " ++ Double.text base ++ " is not positive"
  | .noNumbers function => function ++ " needs at least one number"
  | .noArgumentList label => "'" ++ label ++ "' does not take an argument list"

/-- Why an evaluation fails. -/
inductive EvaluationError where
  | unboundVariable (name : String)
  | kindMismatch (name : String) (expected found : Kind)
  | expectedNumber (found : Kind)
  | expectedBool (found : Kind)
  | divisionByZero
  | invalidArgument (fault : ArgumentFault)
  | argumentCount (function : String) (expected : Arity) (found : Nat)

def EvaluationError.message : EvaluationError → String
  | .unboundVariable name => "Unbound variable '" ++ name ++ "'."
  | .kindMismatch name expected found =>
    "Variable '" ++ name ++ "' should be " ++ expected.text ++ " but is bound to " ++
      found.text ++ "."
  | .expectedNumber found => "Expected number, found " ++ found.text ++ "."
  | .expectedBool found => "Expected boolean, found " ++ found.text ++ "."
  | .divisionByZero => "Division by zero."
  | .invalidArgument fault => "Invalid argument: " ++ fault.text ++ "."
  | .argumentCount function expected found =>
    "'" ++ function ++ "' expects " ++ expected.text ++ " argument(s) but received " ++
      toString found ++ "."

/-- A value, or why there is none. -/
abbrev Outcome := Except EvaluationError Value

/-- An implementation, by the number of arguments it takes. -/
inductive Implementation where
  | nullary (run : Outcome)
  | unary (run : Value → Outcome)
  | binary (run : Value → Value → Outcome)
  | ternary (run : Value → Value → Value → Outcome)
  | variadic (run : List Value → Outcome)

/-- A named implementation of an operator, a function or an enclosure. -/
structure Callable where
  name : String
  implementation : Implementation

namespace Callable

def arity (c : Callable) : Arity :=
  match c.implementation with
  | .nullary _ => .exactly 0
  | .unary _ => .exactly 1
  | .binary _ => .exactly 2
  | .ternary _ => .exactly 3
  | .variadic _ => .any

/-- Whether a callable takes all its arguments as one list. -/
def isVariadic (c : Callable) : Bool :=
  match c.implementation with
  | .variadic _ => true
  | _ => false

/-- Calls an implementation on as many arguments as it takes. -/
def call (c : Callable) (arguments : List Value) : Outcome :=
  match c.implementation, arguments with
  | .nullary run, [] => run
  | .unary run, [a] => run a
  | .binary run, [a, b] => run a b
  | .ternary run, [a, b, d] => run a b d
  | .variadic run, vs => run vs
  | _, _ => .error (.argumentCount c.name c.arity arguments.length)

/-- Callables are told apart by name and arity. -/
instance : BEq Callable := ⟨fun c d => c.name == d.name && c.arity == d.arity⟩

end Callable

namespace Value

/-- The number that a value is. -/
def asNumber : Value → Except EvaluationError Float
  | .number x => .ok x
  | v => .error (.expectedNumber v.kind)

/-- The truth value that a value is. -/
def asBool : Value → Except EvaluationError Bool
  | .bool b => .ok b
  | v => .error (.expectedBool v.kind)

end Value

end OperatorGrammar
