import OperatorGrammar.Callable
import OperatorGrammar.Number.Arithmetic

/-! # Comparisons

Equality compares any two values; the orders and approximate equality compare numbers. -/

namespace OperatorGrammar

namespace Operation

/-- How far apart two numbers may lie, in proportion to the larger of them, to count as equal. -/
def relativeTolerance : Float := 1e-10

/-- How far apart two numbers may lie, whatever their size, to count as equal. -/
def absoluteTolerance : Float := 0.0

def equal (left right : Value) : Outcome := .ok (.bool (left == right))

def notEqual (left right : Value) : Outcome := .ok (.bool (left != right))

/-- Whether two numbers are equal up to the tolerances. -/
def approxEqual (left right : Value) : Outcome := do
  let a ← left.asNumber
  let b ← right.asNumber
  let tolerance :=
    Double.maximum absoluteTolerance (relativeTolerance * Double.maximum a.abs b.abs)
  return .bool (decide ((a - b).abs <= tolerance))

def less (left right : Value) : Outcome := do
  let a ← left.asNumber
  let b ← right.asNumber
  return .bool (decide (a < b))

def lessEqual (left right : Value) : Outcome := do
  let a ← left.asNumber
  let b ← right.asNumber
  return .bool (decide (a <= b))

def greater (left right : Value) : Outcome := do
  let a ← left.asNumber
  let b ← right.asNumber
  return .bool (decide (a > b))

def greaterEqual (left right : Value) : Outcome := do
  let a ← left.asNumber
  let b ← right.asNumber
  return .bool (decide (a >= b))

end Operation

namespace Callable

def equal : Callable := ⟨"equal", .binary Operation.equal⟩

def notEqual : Callable := ⟨"not_equal", .binary Operation.notEqual⟩

def approxEqual : Callable := ⟨"approx_equal", .binary Operation.approxEqual⟩

def less : Callable := ⟨"less", .binary Operation.less⟩

def lessEqual : Callable := ⟨"less_equal", .binary Operation.lessEqual⟩

def greater : Callable := ⟨"greater", .binary Operation.greater⟩

def greaterEqual : Callable := ⟨"greater_equal", .binary Operation.greaterEqual⟩

end Callable

end OperatorGrammar
