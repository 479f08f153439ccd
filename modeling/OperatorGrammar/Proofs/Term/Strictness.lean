import OperatorGrammar.Operation.Logic
import OperatorGrammar.Proofs.Term.Nodes

/-! # Evaluation is strict, and the first failure is reported

`Term.postOrder` lists the nodes of a term in the order in which they are evaluated: the arguments
of a call from left to right, then the call.  `FailsFirst` says at which node of such a list
evaluation fails: all nodes before it have a value, and so have its own arguments, so that it is
the node itself that fails.  A term that has a value has one for each of its nodes
(`exists_value_of_mem_nodes`), and one that has none has failed first at a node
(`exists_failsFirst`).  Nothing is said about callables: no choice and no connective can keep an
argument from being evaluated (`evaluate_strict`). -/

namespace OperatorGrammar

namespace Term

variable {b : Bindings} {t n : Term} {ts us : List Term} {e : EvaluationError}

/-! ### The order of evaluation -/

mutual

/-- The terms that a term is made of, the arguments of a call before the call. -/
def postOrder : Term → List Term
  | .constant label value => [.constant label value]
  | .free name kind => [.free name kind]
  | .method label callable arguments =>
    postOrderOfAll arguments ++ [.method label callable arguments]
  | .vararg label callable arguments =>
    postOrderOfAll arguments ++ [.vararg label callable arguments]

def postOrderOfAll : List Term → List Term
  | [] => []
  | t :: ts => postOrder t ++ postOrderOfAll ts

end

theorem postOrder_eq_append (t : Term) : t.postOrder = postOrderOfAll t.children ++ [t] := by
  cases t <;> rfl

theorem postOrderOfAll_perm (h : ∀ t ∈ ts, t.postOrder.Perm t.nodes) :
    (postOrderOfAll ts).Perm (nodesOfAll ts) := by
  induction ts with
  | nil => exact List.Perm.refl _
  | cons t ts ih =>
      rw [List.forall_mem_cons] at h
      exact h.1.append (ih h.2)

/-- The order of evaluation visits every node once. -/
theorem postOrder_perm (t : Term) : t.postOrder.Perm t.nodes := by
  induction t using Term.children_induction with
  | node t ih =>
      rw [postOrder_eq_append, nodes_eq_cons]
      exact (List.perm_append_singleton _ _).trans ((postOrderOfAll_perm ih).cons t)

theorem mem_postOrderOfAll : n ∈ postOrderOfAll ts ↔ ∃ t ∈ ts, n ∈ t.nodes := by
  rw [(postOrderOfAll_perm fun t _ => postOrder_perm t).mem_iff, mem_nodesOfAll]

/-! ### Terms with a value -/

/-- Whether a term has no value. -/
def fails (b : Bindings) (t : Term) : Bool := !(t.evaluate b).isOk

theorem fails_eq_true : t.fails b = true ↔ ∃ e, t.evaluate b = .error e := by
  unfold fails
  cases t.evaluate b <;> simp [Except.isOk, Except.toBool]

theorem fails_eq_false : t.fails b = false ↔ ∃ v, t.evaluate b = .ok v := by
  unfold fails
  cases t.evaluate b <;> simp [Except.isOk, Except.toBool]

theorem find?_fails_eq_none (h : ∀ t ∈ ts, ∃ v, t.evaluate b = .ok v) :
    (postOrderOfAll ts).find? (fails b) = none := by
  rw [List.find?_eq_none]
  intro n hn
  obtain ⟨t, ht, hn⟩ := mem_postOrderOfAll.mp hn
  rw [Bool.not_eq_true, fails_eq_false]
  exact exists_value_of_mem_nodes (h t ht) n hn

/-! ### The first failure -/

/-- Whether a node is the first one of a list to fail.  Its arguments have values, so that the error
is its own. -/
structure FailsFirst (b : Bindings) (ts : List Term) (n : Term) (e : EvaluationError) : Prop where
  first : ts.find? (fails b) = some n
  arguments : ∀ u ∈ n.children, ∃ v, u.evaluate b = .ok v
  own : n.evaluate b = .error e

/-- There is one first failure. -/
theorem FailsFirst.error_eq {n' : Term} {e' : EvaluationError} (h : FailsFirst b ts n e)
    (h' : FailsFirst b ts n' e') : e = e' := by
  obtain rfl : n = n' := Option.some.inj (h.first.symm.trans h'.first)
  exact Except.error.inj (h.own.symm.trans h'.own)

theorem FailsFirst.append_right (h : FailsFirst b ts n e) (us : List Term) :
    FailsFirst b (ts ++ us) n e where
  first := by rw [List.find?_append, h.first, Option.some_or]
  arguments := h.arguments
  own := h.own

theorem FailsFirst.append_left (values : ts.find? (fails b) = none) (h : FailsFirst b us n e) :
    FailsFirst b (ts ++ us) n e where
  first := by rw [List.find?_append, values, Option.none_or, h.first]
  arguments := h.arguments
  own := h.own

theorem exists_failsFirst_of_all
    (each : ∀ t ∈ ts, ∀ e, t.evaluate b = .error e → ∃ n, FailsFirst b t.postOrder n e)
    (h : evaluateAll b ts = .error e) : ∃ n, FailsFirst b (postOrderOfAll ts) n e := by
  induction ts with
  | nil => cases h
  | cons t ts ih =>
      rw [List.forall_mem_cons] at each
      rcases bind_eq_error.mp h with h | ⟨v, hv, h⟩
      · obtain ⟨n, hn⟩ := each.1 e h
        exact ⟨n, hn.append_right _⟩
      · rcases bind_eq_error.mp h with h | ⟨_, -, h⟩
        · obtain ⟨n, hn⟩ := ih each.2 h
          have values : (postOrderOfAll [t]).find? (fails b) = none :=
            find?_fails_eq_none (List.forall_mem_singleton.mpr ⟨v, hv⟩)
          rw [postOrderOfAll, postOrderOfAll, List.append_nil] at values
          exact ⟨n, hn.append_left values⟩
        · cases h

/-- A term without value has failed first at one of its nodes, with the error of the node. -/
theorem exists_failsFirst (h : t.evaluate b = .error e) : ∃ n, FailsFirst b t.postOrder n e := by
  induction t using Term.children_induction generalizing e with
  | node t ih =>
      rw [postOrder_eq_append]
      cases ha : evaluateAll b t.children with
      | error e' =>
          obtain rfl : e' = e := Except.error.inj ((evaluate_of_arguments ha).symm.trans h)
          obtain ⟨n, hn⟩ := exists_failsFirst_of_all (fun u hu e he => ih u hu he) ha
          exact ⟨n, hn.append_right _⟩
      | ok values =>
          -- All arguments have values, so it is the node itself that fails.
          have arguments := exists_value_of_mem ha
          have own : FailsFirst b [t] t e :=
            ⟨List.find?_cons_of_pos (fails_eq_true.mpr ⟨e, h⟩), arguments, h⟩
          exact ⟨t, own.append_left (find?_fails_eq_none arguments)⟩

theorem exists_error_of_mem_nodes {u : Term} (hu : u ∈ t.nodes) (h : u.evaluate b = .error e) :
    ∃ e', t.evaluate b = .error e' := by
  cases ht : t.evaluate b with
  | error e' => exact ⟨e', rfl⟩
  | ok v =>
      obtain ⟨w, hw⟩ := exists_value_of_mem_nodes ⟨v, ht⟩ u hu
      rw [h] at hw
      cases hw

/-- **Evaluation is strict and reports the first failure.**  A term with a node that has no value
has none, whatever its callables would make of the other arguments.  It fails with an error exactly
if this is the error of the node that fails first in the order of evaluation, whose arguments all
have values. -/
theorem evaluate_strict (b : Bindings) (t : Term) :
    (∀ u ∈ t.nodes, ∀ e, u.evaluate b = .error e → ∃ e', t.evaluate b = .error e') ∧
      ∀ e, t.evaluate b = .error e ↔ ∃ n, FailsFirst b t.postOrder n e := by
  refine ⟨fun u hu e => exists_error_of_mem_nodes hu, fun e => ⟨exists_failsFirst, ?_⟩⟩
  rintro ⟨n, hn⟩
  have hmem : n ∈ t.nodes := (postOrder_perm t).mem_iff.mp (List.mem_of_find?_eq_some hn.first)
  obtain ⟨e', he'⟩ := exists_error_of_mem_nodes hmem hn.own
  obtain ⟨n', hn'⟩ := exists_failsFirst he'
  rw [he', hn.error_eq hn']

/-- The branch that a choice does not take has no value, and a disjunction that is settled by its
first operand fails for the second one, before the third. -/
theorem evaluate_strict_sample :
    ∃ (b : Bindings) (t untaken second : Term),
      untaken ∈ t.nodes ∧ untaken.evaluate b = .error (.unboundVariable "x") ∧
      FailsFirst b t.postOrder second (.expectedBool .list) ∧
      (∃ e, t.evaluate b = .error e) ∧ t.evaluate b = .error (.expectedBool .list) := by
  let untaken : Term := .free "x" .bool
  let second : Term := .method "not" .negation [.constant "c" (.list [])]
  let t : Term := .method "if" .choice [.constant "true" (.bool true),
    .vararg "or" .disjunction [.constant "true" (.bool true), second, .free "y" .bool], untaken]
  have hmem : untaken ∈ t.nodes := by simp [t, untaken, nodes, nodesOfAll]
  have hfails : untaken.evaluate .empty = .error (.unboundVariable "x") := rfl
  have first : FailsFirst .empty t.postOrder second (.expectedBool .list) := by
    refine ⟨rfl, ?_, rfl⟩
    intro u hu
    obtain rfl : u = .constant "c" (.list []) := List.mem_singleton.mp hu
    exact ⟨_, rfl⟩
  obtain ⟨strict, error⟩ := evaluate_strict .empty t
  exact ⟨.empty, t, untaken, second, hmem, hfails, first, strict untaken hmem _ hfails,
    (error _).mpr ⟨second, first⟩⟩

end Term

end OperatorGrammar
