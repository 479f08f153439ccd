import OperatorGrammar.Callable

/-! # Logical operators

Conjunction and disjunction take any number of truth values and look at all of them, also when the
first has settled the result.  An implication with a false condition does not look at the rest. -/

namespace OperatorGrammar

namespace Operation

/-- Whether all arguments are true; so are none. -/
def conjunction (arguments : List Value) : Outcome := do
  let bs ← arguments.mapM Value.asBool
  return .bool (bs.all id)

/-- Whether one of the arguments is true; of none, none is. -/
def disjunction (arguments : List Value) : Outcome := do
  let bs ← arguments.mapM Value.asBool
  return .bool (bs.any id)

/-- Whether exactly one of two is true. -/
def exclusive (left right : Value) : Outcome := do
  let a ← left.asBool
  let b ← right.asBool
  return .bool (a ^^ b)

/-- Whether the second is true, or the first false. -/
def implication (left right : Value) : Outcome := do
  let a ← left.asBool
  if a then
    let b ← right.asBool
    return .bool b
  else return .bool true

def equivalence (left right : Value) : Outcome := do
  let a ← left.asBool
  let b ← right.asBool
  return .bool (a == b)

def negation (v : Value) : Outcome := do
  let b ← v.asBool
  return .bool (!b)

/-- One of two values, chosen by a truth value. -/
def choice (condition yes no : Value) : Outcome := do
  let b ← condition.asBool
  return if b then yes else no

end Operation

namespace Callable

def conjunction : Callable := ⟨"and", .variadic Operation.conjunction⟩

def disjunction : Callable := ⟨"or", .variadic Operation.disjunction⟩

def exclusive : Callable := ⟨"xor", .binary Operation.exclusive⟩

def implication : Callable := ⟨"implies", .binary Operation.implication⟩

def equivalence : Callable := ⟨"iff", .binary Operation.equivalence⟩

def negation : Callable := ⟨"not", .unary Operation.negation⟩

def choice : Callable := ⟨"if", .ternary Operation.choice⟩

end Callable

end OperatorGrammar
