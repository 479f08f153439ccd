import OperatorGrammar.Operation.Arithmetic
import OperatorGrammar.Operation.Comparison
import OperatorGrammar.Operation.Logic

/-! # Named functions

The functions that the bundled grammars know by name, in the order of `Callable.functions`. -/

namespace OperatorGrammar

namespace Operation

/-- A function of one number whose result has to be a real number. -/
def real (name : String) (f : Float → Float) (v : Value) : Outcome := do
  let x ← v.asNumber
  realResult name x (f x)

/-- The logarithm of the first number to the base of the second. -/
def logarithm (value base : Value) : Outcome := do
  let x ← value.asNumber
  let b ← base.asNumber
  if b <= 0.0 then throw (.invalidArgument (.logarithmBase b))
  let scale := b.log
  if scale == 0.0 then throw .divisionByZero
  realResult "log" x (x.log / scale)

/-- The sign of a number as `-1`, `0` or `1`. -/
def sign (v : Value) : Outcome := do
  let x ← v.asNumber
  return .number (if x > 0.0 then 1.0 else if x < 0.0 then -1.0 else 0.0)

/-- The angle of the point with the second number to the right and the first one up. -/
def angle (y x : Value) : Outcome := do
  let a ← y.asNumber
  let b ← x.asNumber
  return .number (Float.atan2 a b)

/-- The number that is left when `pick` chooses between two of them, from left to right. -/
def extreme (name : String) (pick : Float → Float → Float) (arguments : List Value) : Outcome := do
  match ← numbers arguments with
  | [] => throw (.invalidArgument (.noNumbers name))
  | x :: xs => return .number (xs.foldl pick x)

def minimum : List Value → Outcome := extreme "min" Double.minimum

def maximum : List Value → Outcome := extreme "max" Double.maximum

/-- The sum of the arguments divided by their number. -/
def mean (arguments : List Value) : Outcome := do
  let xs ← numbers arguments
  if xs.isEmpty then throw (.invalidArgument (.noNumbers "mean"))
  return .number (total xs / Float.ofNat xs.length)

/-- The arguments as a list. -/
def list (arguments : List Value) : Outcome := .ok (.list arguments)

end Operation

namespace Callable

def list : Callable := ⟨"list", .variadic Operation.list⟩

def absolute : Callable := ⟨"abs", .unary (Operation.real "abs" Float.abs)⟩

def real (name : String) (f : Float → Float) : Callable := ⟨name, .unary (Operation.real name f)⟩

/-- Every function that the bundled grammars know by name. -/
def functions : List Callable :=
  [real "sin" Float.sin, real "cos" Float.cos, real "tan" Float.tan,
    real "asin" Float.asin, real "acos" Float.acos, real "atan" Float.atan,
    real "sinh" Float.sinh, real "cosh" Float.cosh, real "tanh" Float.tanh,
    real "exp" Float.exp, real "ln" Float.log,
    ⟨"log", .binary Operation.logarithm⟩,
    real "sqrt" Float.sqrt, absolute,
    real "floor" Float.floor, real "ceil" Float.ceil, real "round" Float.round,
    ⟨"sign", .unary Operation.sign⟩,
    real "radians" Double.toRadians, real "degrees" Double.toDegrees,
    ⟨"atan2", .binary Operation.angle⟩,
    ⟨"min", .variadic Operation.minimum⟩, ⟨"max", .variadic Operation.maximum⟩,
    ⟨"sum", .variadic Operation.add⟩, ⟨"mean", .variadic Operation.mean⟩,
    choice]

/-- Looks a function up by its name. -/
def function? (name : String) : Option Callable := functions.find? (·.name == name)

/-- Every operator of the bundled grammars. -/
def operators : List Callable :=
  [add, multiply, conjunction, disjunction, list, subtract, divide, remainder, power, equal,
    notEqual, approxEqual, less, lessEqual, greater, greaterEqual, exclusive, implication,
    equivalence, negate, identity, negation, factorial]

end Callable

end OperatorGrammar
