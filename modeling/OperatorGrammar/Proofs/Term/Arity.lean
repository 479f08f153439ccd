import OperatorGrammar.Grammar.Bundled
import OperatorGrammar.Proofs.Term.Binding
import OperatorGrammar.Proofs.Term.Nodes

/-! # Calls have as many arguments as their callables take

A call that does not fit its callable is answered with an error: one for a wrong number of
arguments, and one for a list of arguments where none is taken.  `Term.evaluateOr` is evaluation
with any other answers in their place.  For the terms of trees the answers make no difference
(`evaluateOr_of_arityFits`), whatever the callables are and do: binding has counted the arguments of
every call, and evaluation hands on one value for each (`arityFits_of_ofTree`). -/

namespace OperatorGrammar

/-- The answers to calls that do not fit their callables. -/
structure Misfits where
  /-- To a number of arguments that is not the one that is taken. -/
  count (callable : Callable) (arguments : List Value) : Outcome
  /-- To a list of arguments where none is taken. -/
  argumentList (callable : Callable) (label : String) (arguments : List Value) : Outcome

/-- The errors that are reported. -/
def Misfits.reported : Misfits where
  count callable arguments :=
    .error (.argumentCount callable.name callable.arity arguments.length)
  argumentList _ label _ := .error (.invalidArgument (.noArgumentList label))

namespace Callable

variable (m : Misfits) {callable : Callable} {label : String} {arguments : List Value}

/-- Calls an implementation on as many arguments as it takes, and gives some answer if there are
more or fewer. -/
def callOr (callable : Callable) (arguments : List Value) : Outcome :=
  match callable.implementation, arguments with
  | .nullary run, [] => run
  | .unary run, [a] => run a
  | .binary run, [a, b] => run a b
  | .ternary run, [a, b, d] => run a b d
  | .variadic run, vs => run vs
  | _, _ => m.count callable arguments

/-- Calls a variadic implementation on a list of arguments, and gives some answer for any other
one. -/
def callListOr (callable : Callable) (label : String) (arguments : List Value) : Outcome :=
  match callable.implementation with
  | .variadic run => run arguments
  | _ => m.argumentList callable label arguments

theorem callOr_reported (callable : Callable) (arguments : List Value) :
    callable.callOr .reported arguments = callable.call arguments := by
  obtain ⟨name, implementation⟩ := callable
  cases implementation with
  | nullary run => cases arguments <;> rfl
  | unary run =>
      match arguments with
      | [] | [_] | _ :: _ :: _ => rfl
  | binary run =>
      match arguments with
      | [] | [_] | [_, _] | _ :: _ :: _ :: _ => rfl
  | ternary run =>
      match arguments with
      | [] | [_] | [_, _] | [_, _, _] | _ :: _ :: _ :: _ :: _ => rfl
  | variadic run => rfl

theorem callListOr_reported (callable : Callable) (label : String) (arguments : List Value) :
    callable.callListOr .reported label arguments = callable.callList label arguments := by
  obtain ⟨name, implementation⟩ := callable
  cases implementation <;> rfl

theorem isVariadic_iff : callable.isVariadic = true ↔ callable.arity = .any := by
  obtain ⟨name, implementation⟩ := callable
  cases implementation <;> simp [isVariadic, arity]

theorem arity_of_not_isVariadic (h : callable.isVariadic = false) {count : Nat}
    (admits : callable.arity.admits count = true) : callable.arity = .exactly count := by
  cases ha : callable.arity with
  | any =>
      rw [isVariadic_iff.mpr ha] at h
      cases h
  | exactly n =>
      rw [ha] at admits
      rw [show count = n from eq_of_beq admits]

theorem callOr_of_arity (h : callable.arity = .exactly arguments.length) :
    callable.callOr m arguments = callable.call arguments := by
  obtain ⟨name, implementation⟩ := callable
  cases implementation with
  | nullary run =>
      have hlength : arguments.length = 0 := by simpa [arity, eq_comm] using h
      rw [List.length_eq_zero_iff.mp hlength]
      rfl
  | unary run =>
      have hlength : arguments.length = 1 := by simpa [arity, eq_comm] using h
      obtain ⟨a, rfl⟩ := List.length_eq_one_iff.mp hlength
      rfl
  | binary run =>
      have hlength : arguments.length = 2 := by simpa [arity, eq_comm] using h
      obtain ⟨a, b, rfl⟩ := List.length_eq_two.mp hlength
      rfl
  | ternary run =>
      have hlength : arguments.length = 3 := by simpa [arity, eq_comm] using h
      obtain ⟨a, b, d, rfl⟩ := List.length_eq_three.mp hlength
      rfl
  | variadic run => cases h

theorem callListOr_of_isVariadic (h : callable.isVariadic = true) :
    callable.callListOr m label arguments = callable.callList label arguments := by
  obtain ⟨name, implementation⟩ := callable
  cases implementation with
  | variadic run => rfl
  | _ => cases h

end Callable

namespace Term

/-! ### Evaluation with other answers -/

mutual

/-- The value of a term, with some answers to calls that do not fit. -/
def evaluateOr (m : Misfits) (b : Bindings) : Term → Outcome
  | .constant _ value => .ok value
  | .free name kind => b.read name kind
  | .method _ callable arguments => do
    let values ← evaluateAllOr m b arguments
    callable.callOr m values
  | .vararg label callable arguments => do
    let values ← evaluateAllOr m b arguments
    callable.callListOr m label values

def evaluateAllOr (m : Misfits) (b : Bindings) : List Term → Except EvaluationError (List Value)
  | [] => .ok []
  | t :: ts => do
    let value ← evaluateOr m b t
    let values ← evaluateAllOr m b ts
    return value :: values

end

variable {m : Misfits} {b : Bindings} {t : Term}

theorem evaluateAllOr_eq {ts : List Term} (h : ∀ t ∈ ts, t.evaluateOr m b = t.evaluate b) :
    evaluateAllOr m b ts = evaluateAll b ts := by
  induction ts with
  | nil => rfl
  | cons t ts ih =>
      rw [List.forall_mem_cons] at h
      rw [evaluateAllOr, evaluateAll, h.1, ih h.2]

theorem evaluateOr_reported (b : Bindings) (t : Term) :
    t.evaluateOr .reported b = t.evaluate b := by
  induction t using Term.induction with
  | constant label value => rfl
  | free name kind => rfl
  | method label callable arguments ih =>
      simp only [evaluateOr, evaluate, evaluateAllOr_eq ih, Callable.callOr_reported]
  | vararg label callable arguments ih =>
      simp only [evaluateOr, evaluate, evaluateAllOr_eq ih, Callable.callListOr_reported]

/-! ### Calls that fit -/

/-- Whether a node fits its callable: one that takes a list of arguments, or one that takes as many
arguments as there are. -/
def ArityFits : Term → Prop
  | .method _ callable arguments => callable.arity = .exactly arguments.length
  | .vararg _ callable _ => callable.isVariadic = true
  | .constant _ _ | .free _ _ => True

theorem arityFits_call {label : String} {callable : Callable} {arguments : List Term}
    (h : callable.arity.admits arguments.length = true) :
    (call label callable arguments).ArityFits := by
  unfold call
  by_cases hv : callable.isVariadic = true
  · rw [if_pos hv]
    exact hv
  · rw [if_neg hv]
    exact Callable.arity_of_not_isVariadic (by simpa using hv) h

theorem children_call (label : String) (callable : Callable) (arguments : List Term) :
    (call label callable arguments).children = arguments := by
  unfold call
  split <;> rfl

/-- Where every call fits, no answer to one that does not is ever given. -/
theorem evaluateOr_of_arityFits (h : ∀ n ∈ t.nodes, n.ArityFits) :
    t.evaluateOr m b = t.evaluate b := by
  induction t using Term.induction with
  | constant label value => rfl
  | free name kind => rfl
  | method label callable arguments ih =>
      obtain ⟨fits, inner⟩ := forall_mem_nodes.mp h
      rw [evaluateOr, evaluate, evaluateAllOr_eq fun u hu => ih u hu (inner u hu)]
      cases hv : evaluateAll b arguments with
      | error e => rfl
      | ok values =>
          refine Callable.callOr_of_arity m ?_
          rw [length_of_evaluateAll hv]
          exact fits
  | vararg label callable arguments ih =>
      obtain ⟨fits, inner⟩ := forall_mem_nodes.mp h
      rw [evaluateOr, evaluate, evaluateAllOr_eq fun u hu => ih u hu (inner u hu)]
      cases hv : evaluateAll b arguments with
      | error e => rfl
      | ok values => exact Callable.callListOr_of_isVariadic m fits

/-- Every call of a term that a tree is bound to fits its callable. -/
theorem arityFits_of_bind {g : Grammar} {tree : TokenTree} (h : bind g tree = .ok t) :
    ∀ n ∈ t.nodes, n.ArityFits := by
  refine bind_induction (P := fun _ t => ∀ n ∈ t.nodes, n.ArityFits) ?_ ?_ ?_ ?_ ?_ ?_ h
  · exact fun _ _ _ _ ih => ih
  · exact fun _ _ _ _ _ ih => ih
  · exact fun _ _ _ => forall_mem_nodes.mpr ⟨trivial, by simp [children]⟩
  · exact fun _ _ _ => forall_mem_nodes.mpr ⟨trivial, by simp [children]⟩
  · exact fun _ _ _ _ => forall_mem_nodes.mpr ⟨trivial, by simp [children]⟩
  · intro tree callable trees arguments _ hadmits harguments
    rw [harguments.length_eq] at hadmits
    refine forall_mem_nodes.mpr ⟨arityFits_call hadmits, ?_⟩
    rw [children_call]
    intro a ha
    obtain ⟨_, _, -, ih⟩ := exists_mem_of_forall₂ harguments ha
    exact ih

/-- **Terms of trees are called as their callables ask.**  Whatever the callables of a grammar are
and whatever the tree is, in its term every call with separate arguments has as many as its callable
takes, and every call with a list of arguments has a callable that takes one.  So evaluation under
any bindings never comes to the answers for other calls: with any answers it gives the same. -/
theorem arityFits_of_ofTree {g : Grammar} {tree : TokenTree} {t : Term}
    (h : ofTree g tree = .ok t) :
    (∀ n ∈ t.nodes, n.ArityFits) ∧ ∀ (b : Bindings) (m : Misfits),
      t.evaluateOr m b = t.evaluate b := by
  have fits := arityFits_of_bind (ofTree_eq_ok.mp h).2
  exact ⟨fits, fun _ _ => evaluateOr_of_arityFits fits⟩

/-- A call of three arguments, a list, and an enclosure that takes one argument.  The tree is none
of a text, for its sum has no operand. -/
theorem arityFits_of_ofTree_sample :
    ∃ t, ofTree Grammar.real (.node "if" .function [
        .node "<" .binary [.leaf "x" .identifier, .leaf "pi" .identifier],
        .node "[" .opening [.node "," .multary [.leaf "x" .identifier, .leaf "y" .identifier]],
        .node "|" .opening [.node "+" .multary []]]) = .ok t ∧
      (∀ n ∈ t.nodes, n.ArityFits) ∧ ∀ (b : Bindings) (m : Misfits),
        t.evaluateOr m b = t.evaluate b := by
  obtain ⟨t, ht⟩ : ∃ t, ofTree Grammar.real (.node "if" .function [
      .node "<" .binary [.leaf "x" .identifier, .leaf "pi" .identifier],
      .node "[" .opening [.node "," .multary [.leaf "x" .identifier, .leaf "y" .identifier]],
      .node "|" .opening [.node "+" .multary []]]) = .ok t := by
    refine ⟨_, ofTree_eq_ok.mpr ⟨by decide +kernel, rfl⟩⟩
  exact ⟨t, ht, arityFits_of_ofTree ht⟩

end Term

end OperatorGrammar
