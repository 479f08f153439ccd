import OperatorGrammar.Callable
import OperatorGrammar.Number.Arithmetic

/-! # Arithmetic operators

Sums and products take any number of arguments and see through one level of lists; the other
operators take one number or two. -/

namespace OperatorGrammar

namespace Operation

/-- The numbers among some arguments, each list standing for its elements. -/
def numbers (arguments : List Value) : Except EvaluationError (List Float) :=
  (arguments.flatMap Value.elements).mapM Value.asNumber

/-- A result that has to be a real number; `name` and `x` say in the error what was computed. -/
def realResult (name : String) (x result : Float) : Outcome :=
  if result.isFinite then .ok (.number result)
  else .error (.invalidArgument (.undefinedAt name x))

/-- The sum from left to right. It begins with negative zero, the one number that every number
absorbs. -/
def total (xs : List Float) : Float := xs.foldl (· + ·) (-0.0)

/-- The sum of the arguments. -/
def add (arguments : List Value) : Outcome := do
  let xs ← numbers arguments
  return .number (total xs)

def multiply (arguments : List Value) : Outcome := do
  let xs ← numbers arguments
  return .number (xs.foldl (· * ·) 1.0)

def subtract (left right : Value) : Outcome := do
  let a ← left.asNumber
  let b ← right.asNumber
  return .number (a - b)

/-- The quotient of two numbers, of which the second is not zero. -/
def divide (left right : Value) : Outcome := do
  let a ← left.asNumber
  let b ← right.asNumber
  if b == 0.0 then throw .divisionByZero
  return .number (a / b)

/-- What remains of the first number after dividing by the second, with the sign of the first. -/
def remainder (left right : Value) : Outcome := do
  let a ← left.asNumber
  let b ← right.asNumber
  if b == 0.0 then throw .divisionByZero
  return .number (Double.remainder a b)

def power (base exponent : Value) : Outcome := do
  let b ← base.asNumber
  let e ← exponent.asNumber
  if b == 0.0 && e < 0.0 then throw .divisionByZero
  let result := Double.power b e
  if result.isFinite then return .number result
  else throw (.invalidArgument (.powerNotReal b e))

def negate (v : Value) : Outcome := do
  let x ← v.asNumber
  return .number (-x)

def identity (v : Value) : Outcome := do
  let x ← v.asNumber
  return .number x

/-- The factorial: a product for whole numbers, `Γ(x + 1)` between them. -/
def factorial (v : Value) : Outcome := do
  let x ← v.asNumber
  if x < 0.0 then throw (.invalidArgument (.undefinedAt "factorial" x))
  let result :=
    match Double.toNat? x with
    | some n => Double.factorial? n
    | none => (some (Double.gamma (x + 1.0))).filter Float.isFinite
  match result with
  | some y => return .number y
  | none => throw (.invalidArgument (.factorialTooLarge x))

end Operation

namespace Callable

open Operation

def add : Callable := ⟨"add", .variadic Operation.add⟩

def multiply : Callable := ⟨"multiply", .variadic Operation.multiply⟩

def subtract : Callable := ⟨"subtract", .binary Operation.subtract⟩

def divide : Callable := ⟨"divide", .binary Operation.divide⟩

def remainder : Callable := ⟨"remainder", .binary Operation.remainder⟩

def power : Callable := ⟨"power", .binary Operation.power⟩

def negate : Callable := ⟨"negate", .unary Operation.negate⟩

def identity : Callable := ⟨"identity", .unary Operation.identity⟩

def factorial : Callable := ⟨"factorial", .unary Operation.factorial⟩

end Callable

end OperatorGrammar
