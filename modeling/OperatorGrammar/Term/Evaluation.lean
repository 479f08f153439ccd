import OperatorGrammar.Table
import OperatorGrammar.Term.OfTree

/-! # Evaluation

A term is worth what its callables make of its constants and variables.  Every argument is
evaluated, from left to right, before its callable is called, and the first failure is the
result. -/

namespace OperatorGrammar

/-- The values of variables, by canonical name. -/
abbrev Bindings := Table Value

/-- The value of a variable, which has to be of its kind. -/
def Bindings.read (b : Bindings) (name : String) (kind : Kind) : Outcome :=
  match b.get? name with
  | none => .error (.unboundVariable name)
  | some v => if kind.admits v then .ok v else .error (.kindMismatch name kind v.kind)

/-- Calls a callable on one list of arguments; only a variadic one takes it. -/
def Callable.callList (c : Callable) (label : String) (arguments : List Value) : Outcome :=
  match c.implementation with
  | .variadic run => run arguments
  | _ => .error (.invalidArgument (.noArgumentList label))

namespace Term

mutual

/-- The value of a term. -/
def evaluate (b : Bindings) : Term → Outcome
  | .constant _ value => .ok value
  | .free name kind => b.read name kind
  | .method _ callable arguments => do
    let values ← evaluateAll b arguments
    callable.call values
  | .vararg label callable arguments => do
    let values ← evaluateAll b arguments
    callable.callList label values

def evaluateAll (b : Bindings) : List Term → Except EvaluationError (List Value)
  | [] => .ok []
  | t :: ts => do
    let value ← evaluate b t
    let values ← evaluateAll b ts
    return value :: values

end

end Term

/-- Why a text has no value. -/
inductive Error where
  | parse (error : ParseError)
  | evaluation (error : EvaluationError)

def Error.message : Error → String
  | .parse e => e.message
  | .evaluation e => e.message

/-- The value of a text. -/
def evaluateText (g : Grammar) (b : Bindings) (input : String) : Except Error Value := do
  let term ← (Term.ofText g input).mapError .parse
  (term.evaluate b).mapError .evaluation

end OperatorGrammar
