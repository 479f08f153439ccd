import OperatorGrammar.Term.Evaluation

/-! # Sessions

A program that evaluates one text after another keeps the values of variables between them, and a
term that it evaluates again.  An action that fails leaves what is kept as it was. -/

namespace OperatorGrammar

/-- What is remembered. -/
structure Session where
  bindings : Bindings := .empty
  /-- The term that was read last. -/
  held : Option Term := none

namespace Session

/-- What can be asked of a session. -/
inductive Action where
  | bind (name source : String)
  | set (name : String) (value : Value)
  | unset (name : String)
  | read (source : String)
  | evaluateHeld
  | evaluate (source : String)

/-- What is answered. -/
inductive Answer where
  | bound (name : String) (value : Value)
  | count (bindings : Nat)
  | removed (was : Bool)
  | read (term : Term)
  | value (value : Value)
  | nothing

/-- Does what is asked: the session afterwards, and the answer. -/
def act (g : Grammar) (s : Session) : Action → Except Error (Session × Answer)
  | .bind name source => do
    let value ← evaluateText g s.bindings source
    let name := g.canonical name
    return ({ s with bindings := s.bindings.insert name value }, .bound name value)
  | .set name value =>
    let bindings := s.bindings.insert name value
    .ok ({ s with bindings := bindings }, .count bindings.size)
  | .unset name =>
    .ok ({ s with bindings := s.bindings.erase name }, .removed (s.bindings.contains name))
  | .read source => do
    let term ← (Term.ofText g source).mapError .parse
    return ({ s with held := some term }, .read term)
  | .evaluateHeld =>
    match s.held with
    | none => .ok (s, .nothing)
    | some term => do
      let value ← (term.evaluate s.bindings).mapError .evaluation
      return (s, .value value)
  | .evaluate source => do
    let value ← evaluateText g s.bindings source
    return (s, .value value)

/-- Does one thing after another; a failure is an answer too, and the session goes on. -/
def actAll (g : Grammar) (s : Session) : List Action → List (Except Error Answer)
  | [] => []
  | action :: rest =>
    match s.act g action with
    | .error e => .error e :: actAll g s rest
    | .ok (next, answer) => .ok answer :: actAll g next rest

end Session

end OperatorGrammar
